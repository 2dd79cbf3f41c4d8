import Eikonal.Proofs.Solver.Causal

/-! Certificates of the values that a solve returns. The value of a cell was assembled from many
relaxations while the front moved, and yet the neighbours accepted before the cell certify it: it is
an update from them, no triangle update from them is less, and where they give no triangle update it
is their least line update. All of them stood on the front when the cell was accepted, with the
values that they kept. -/

namespace Eikonal

variable {α : Type} [Scalar α]

namespace Medium

/-- The consecutive neighbours of a cell that bound a wedge with it. -/
def wedges (m : Medium α) (c : Nat) : List (Nat × Nat) :=
  (cyclicPairs (m.around c)).filter fun p =>
    Stencil.isWedge (m.point c) (m.point p.1) (m.point p.2)

def across (m : Medium α) (u : Array α) (c : Nat) (p : Nat × Nat) : α :=
  Stencil.triangle (m.point c) (m.point p.1) (u.getD p.1 Scalar.inf) (m.point p.2)
    (u.getD p.2 Scalar.inf) (m.tensor c)

/-- The value of the cell `c` is an update from cells in `P`. -/
def Attained (m : Medium α) (u : Array α) (P : List Nat) (c : Nat) : Prop :=
  (∃ j ∈ m.around c, j ∈ P ∧ u.getD c Scalar.inf = m.fromLine u c j) ∨
    ∃ p ∈ m.wedges c, (p.1 ∈ P ∧ p.2 ∈ P) ∧ u.getD c Scalar.inf = m.across u c p

/-- What the cells in `P` say of the value of the cell `c`. -/
structure Certificate (m : Medium α) (u : Array α) (P : List Nat) (c : Nat) : Prop where
  attained : m.Attained u P c
  le_across : ∀ p ∈ m.wedges c, p.1 ∈ P ∧ p.2 ∈ P → Scalar.isNaN (m.across u c p) = false →
    Scalar.le (u.getD c Scalar.inf) (m.across u c p)
  least_line :
    (∀ p ∈ m.wedges c, p.1 ∈ P ∧ p.2 ∈ P → Scalar.lt (m.across u c p) Scalar.inf = false) →
      (∃ j ∈ m.around c, j ∈ P ∧ u.getD c Scalar.inf = m.fromLine u c j) ∧
        ∀ j ∈ m.around c, j ∈ P → Scalar.isNaN (m.fromLine u c j) = false →
          Scalar.le (u.getD c Scalar.inf) (m.fromLine u c j)

variable {m : Medium α} {f : Front} {u u' : Array α} {c j : Nat} {v : α} {p : Nat × Nat}
  {P P' : List Nat}

theorem mem_wedges : p ∈ m.wedges c ↔ p ∈ cyclicPairs (m.around c) ∧
    Stencil.isWedge (m.point c) (m.point p.1) (m.point p.2) :=
  List.mem_filter

theorem fromTriangle_of_mem_wedges (hn : (m.around c).Nodup) (hp : p ∈ m.wedges c) :
    m.fromTriangle u c p.1 p.2 = m.across u c p := by
  obtain ⟨hp, hw⟩ := mem_wedges.mp hp
  simp [fromTriangle, across, hw, ne_of_mem_cyclicPairs hn hp]

/-- Only a wedge gives a triangle update below infinity. -/
theorem mem_wedges_of_fromTriangle [OrderedScalar α] (hp : p ∈ cyclicPairs (m.around c))
    (h : Scalar.lt (m.fromTriangle u c p.1 p.2) Scalar.inf) :
    p ∈ m.wedges c ∧ m.fromTriangle u c p.1 p.2 = m.across u c p := by
  unfold fromTriangle at h ⊢
  split at h
  · rename_i hw
    rw [if_pos hw]
    exact ⟨mem_wedges.mpr ⟨hp, (Bool.and_eq_true_iff.mp hw).2⟩, rfl⟩
  · rw [Scalar.lt_irrefl] at h
    cases h

theorem fromLine_congr (h : u'.getD j Scalar.inf = u.getD j Scalar.inf) :
    m.fromLine u' c j = m.fromLine u c j := by
  rw [fromLine, fromLine, h]

theorem across_congr (h1 : u'.getD p.1 Scalar.inf = u.getD p.1 Scalar.inf)
    (h2 : u'.getD p.2 Scalar.inf = u.getD p.2 Scalar.inf) : m.across u' c p = m.across u c p := by
  rw [across, across, h1, h2]

/-- An attained value stays attained when cells are added and the values of the old ones kept. -/
theorem Attained.mono (h : m.Attained u P c) (hP : ∀ j ∈ P, j ∈ P')
    (hu : ∀ j ∈ P, u'.getD j Scalar.inf = u.getD j Scalar.inf)
    (hc : u'.getD c Scalar.inf = u.getD c Scalar.inf) : m.Attained u' P' c := by
  rcases h with ⟨j, hj, hjP, hv⟩ | ⟨p, hp, ⟨h1, h2⟩, hv⟩
  · refine Or.inl ⟨j, hj, hP j hjP, ?_⟩
    rw [fromLine_congr (hu j hjP), hc, hv]
  · refine Or.inr ⟨p, hp, ⟨hP _ h1, hP _ h2⟩, ?_⟩
    rw [across_congr (hu _ h1) (hu _ h2), hc, hv]

theorem Certificate.congr (h : m.Certificate u P c)
    (hu : ∀ j ∈ P, u'.getD j Scalar.inf = u.getD j Scalar.inf)
    (hc : u'.getD c Scalar.inf = u.getD c Scalar.inf) : m.Certificate u' P c := by
  have hline : ∀ j ∈ P, m.fromLine u' c j = m.fromLine u c j := fun j hj => fromLine_congr (hu j hj)
  have hacross : ∀ p : Nat × Nat, p.1 ∈ P ∧ p.2 ∈ P → m.across u' c p = m.across u c p :=
    fun p hp => across_congr (hu _ hp.1) (hu _ hp.2)
  refine ⟨h.attained.mono (fun _ hj => hj) hu hc, fun p hp hpP hn => ?_, fun hnone => ?_⟩
  · rw [hacross p hpP] at hn ⊢
    rw [hc]
    exact h.le_across p hp hpP hn
  · obtain ⟨⟨j, hj, hjP, hv⟩, hle⟩ := h.least_line fun p hp hpP => by
      rw [← hacross p hpP]
      exact hnone p hp hpP
    refine ⟨⟨j, hj, hjP, by rw [hc, hline j hjP, hv]⟩, fun i hi hiP hn => ?_⟩
    rw [hline i hiP] at hn ⊢
    rw [hc]
    exact hle i hi hiP hn

variable [OrderedScalar α]

theorem attained_of_tentative? (hv : m.tentative? f u c = some v)
    (hf : ∀ d ∈ m.around c, f.contains d → d ∈ P) (hu : ∀ j ∈ P, u'.getD j Scalar.inf =
      u.getD j Scalar.inf) (hc : u'.getD c Scalar.inf = v) : m.Attained u' P c := by
  rcases exists_candidate hv with ⟨p, hp, hpv⟩ | ⟨j, hj, hjv⟩
  · obtain ⟨hp, hp1, hp2⟩ := mem_upwindPairs.mp hp
    obtain ⟨h1, h2⟩ := mem_of_mem_cyclicPairs hp
    have h1P := hf _ h1 hp1
    have h2P := hf _ h2 hp2
    obtain ⟨hw, hacross⟩ := mem_wedges_of_fromTriangle hp (hpv ▸ lt_inf_of_tentative? hv)
    refine Or.inr ⟨p, hw, ⟨h1P, h2P⟩, ?_⟩
    rw [across_congr (hu _ h1P) (hu _ h2P), ← hacross, hpv, hc]
  · obtain ⟨hj, hjf⟩ := mem_upwind.mp hj
    have hjP := hf j hj hjf
    refine Or.inl ⟨j, hj, hjP, ?_⟩
    rw [fromLine_congr (hu j hjP), hjv, hc]

/-- A value that has been attained and that the front does not lower is certified by the front. -/
theorem Attained.certificate (h : m.Attained u P c) (hn : (m.around c).Nodup)
    (hf : ∀ d ∈ m.around c, f.contains d ↔ d ∈ P) (hlt : Scalar.lt (u.getD c Scalar.inf) Scalar.inf)
    (hv : m.tentative? f u c = some v) (hle : Scalar.le (u.getD c Scalar.inf) v) :
    m.Certificate u P c := by
  have hpair : ∀ p ∈ m.wedges c, p.1 ∈ P ∧ p.2 ∈ P →
      m.across u c p ∈ (m.upwindPairs f c).map fun p => m.fromTriangle u c p.1 p.2 := by
    intro p hp hpP
    obtain ⟨h1, h2⟩ := mem_of_mem_cyclicPairs (mem_wedges.mp hp).1
    rw [← fromTriangle_of_mem_wedges hn hp]
    exact List.mem_map_of_mem (f := fun p => m.fromTriangle u c p.1 p.2) (mem_upwindPairs.mpr
      ⟨(mem_wedges.mp hp).1, (hf _ h1).mpr hpP.1, (hf _ h2).mpr hpP.2⟩)
  obtain ⟨hvlt, hcase⟩ := tentative?_eq_some_iff.mp hv
  refine ⟨h, fun p hp hpP hnan => ?_, fun hnone => ?_⟩
  · by_cases hinf : Scalar.lt (m.across u c p) Scalar.inf
    · -- the least triangle update is below infinity, so the front gives it
      have hleast : Scalar.le (m.byTriangle f u c) (m.across u c p) :=
        Scalar.leastOf_le (hpair p hp hpP) hnan
      rcases hcase with rfl | ⟨ht, -⟩
      · exact OrderedScalar.le_trans hle hleast
      · rw [Scalar.lt_of_le_of_lt hleast hinf] at ht
        cases ht
    · exact OrderedScalar.le_trans (Scalar.le_of_lt hlt)
        (Scalar.le_of_not_lt Scalar.isNaN_inf hnan (by simpa using hinf))
  · -- a least triangle update below infinity would come from a wedge in `P`
    have ht : Scalar.lt (m.byTriangle f u c) Scalar.inf = false := by
      rw [Bool.eq_false_iff]
      intro ht
      obtain ⟨p, hp, hpv⟩ := List.mem_map.mp (Scalar.leastOf_mem_of_lt ht)
      obtain ⟨hp, hp1, hp2⟩ := mem_upwindPairs.mp hp
      obtain ⟨h1, h2⟩ := mem_of_mem_cyclicPairs hp
      have hplt : Scalar.lt (m.fromTriangle u c p.1 p.2) Scalar.inf := hpv ▸ ht
      obtain ⟨hw, hacross⟩ := mem_wedges_of_fromTriangle hp hplt
      have := hnone p hw ⟨(hf _ h1).mp hp1, (hf _ h2).mp hp2⟩
      rw [← hacross, hplt] at this
      cases this
    constructor
    · rcases h with hline | ⟨p, hp, hpP, hpv⟩
      · exact hline
      · have := hnone p hp hpP
        rw [← hpv, hlt] at this
        cases this
    · intro j hj hjP hnan
      rcases hcase with rfl | ⟨-, rfl⟩
      · rw [hvlt] at ht
        cases ht
      · refine OrderedScalar.le_trans hle (Scalar.leastOf_le ?_ hnan)
        exact List.mem_map_of_mem (mem_upwind.mpr ⟨hj, (hf j hj).mpr hjP⟩)

end Medium

namespace Run

/-- The cells that were accepted before the cell `c`; all of them if `c` is not accepted. -/
def acceptedBefore (r : Run α) (c : Nat) : List Nat := r.order.toList.takeWhile (· != c)

/-- A run in which the accepted cells but the start cells are certified by the cells accepted before
them, and the values of the considered cells are updates from the accepted ones. -/
structure Certified (m : Medium α) (starts : List Nat) (r : Run α) : Prop where
  attained : ∀ c, r.stateOf c = .considered → m.Attained r.solution (r.acceptedBefore c) c
  certificate : ∀ c, r.isAccepted c → c ∉ starts →
    m.Certificate r.solution (r.acceptedBefore c) c

variable {m : Medium α} {starts : List Nat} {n k : Nat} {r r1 r2 r3 : Run α} {e : Entry Nat α}
  {c d : Nat} {p : Nat → Prop} {f : Nat → α}

theorem Coherent.isAccepted_of_before (h : r.Coherent n) (hd : d ∈ r.acceptedBefore c) :
    r.isAccepted d :=
  (h.mem_order d).mp (Array.mem_def.mpr ((List.takeWhile_prefix _).subset hd))

theorem Coherent.mem_acceptedBefore (h : r.Coherent n) (hc : r.isAccepted c = false) :
    d ∈ r.acceptedBefore c ↔ r.isAccepted d := by
  have hall : r.acceptedBefore c = r.order.toList := by
    apply List.takeWhile_eq_self_iff.mpr
    intro a ha
    rw [bne_iff_ne]
    rintro rfl
    rw [(h.mem_order a).mp (Array.mem_def.mpr ha)] at hc
    cases hc
  rw [hall, ← Array.mem_def, h.mem_order]

omit [Scalar α] in
theorem acceptedBefore_eq (h : r1.order = r.order) (c : Nat) :
    r1.acceptedBefore c = r.acceptedBefore c := by
  rw [acceptedBefore, acceptedBefore, h]

omit [Scalar α] in
/-- What was accepted before a cell stays the same when the cell, or another one behind it, is
accepted. -/
theorem acceptedBefore_push (h : r1.order = r.order.push d) (hc : c ∈ r.order ∨ d = c) :
    r1.acceptedBefore c = r.acceptedBefore c := by
  rw [acceptedBefore, h, Array.toList_push, List.takeWhile_append, acceptedBefore]
  split
  · rename_i hall
    have hself := (List.takeWhile_prefix (· != c)).eq_of_length hall
    rcases hc with hc | rfl
    · simpa using List.takeWhile_eq_self_iff.mp hself c (Array.mem_def.mp hc)
    · simp [hself]
  · rfl

omit [Scalar α] in
theorem length_acceptedBefore_lt (h : d ∈ r.acceptedBefore c) :
    (r.acceptedBefore d).length < (r.acceptedBefore c).length := by
  unfold acceptedBefore at *
  generalize r.order.toList = l at *
  induction l with
  | nil => cases h
  | cons a l ih =>
    rw [List.takeWhile_cons] at h
    split at h
    · rename_i hac
      rw [List.takeWhile_cons, List.takeWhile_cons, if_pos hac]
      split
      · rename_i had
        have hda : d ≠ a := fun hda => by simp [hda] at had
        simpa using ih (List.mem_of_ne_of_mem hda h)
      · simp
    · cases h

omit [Scalar α] in
theorem before_or_before (hc : c ∈ r.order) (hd : d ∈ r.order) (hne : c ≠ d) :
    c ∈ r.acceptedBefore d ∨ d ∈ r.acceptedBefore c := by
  unfold acceptedBefore
  rw [Array.mem_def] at hc hd
  generalize r.order.toList = l at *
  induction l with
  | nil => cases hc
  | cons a l ih =>
    by_cases hca : c = a
    · left
      simp [hca ▸ hne, hca]
    · by_cases hda : d = a
      · right
        simp [hda ▸ hne.symm, hda]
      · have hc := List.mem_of_ne_of_mem hca hc
        have hd := List.mem_of_ne_of_mem hda hd
        simpa [Ne.symm hca, Ne.symm hda, hca, hda] using ih hc hd

/-- What was accepted before a cell is not above it. -/
theorem Causal.le_of_before (h : r.Causal m) (hc : r.isAccepted c) (hd : d ∈ r.acceptedBefore c) :
    Scalar.le (r.valueOf d) (r.valueOf c) := by
  have hco := h.inOrder
  have hcm : c ∈ r.order.toList := Array.mem_def.mp ((h.coherent.mem_order c).mpr hc)
  unfold InOrder at hco
  rw [← List.takeWhile_append_dropWhile (p := (· != c)) (l := r.order.toList),
    List.pairwise_append] at hco
  refine hco.2.2 d hd c ?_
  rw [← List.takeWhile_append_dropWhile (p := (· != c)) (l := r.order.toList),
    List.mem_append] at hcm
  refine hcm.resolve_left fun hin => ?_
  simpa using List.mem_takeWhile_imp hin

/-! ### What keeps a run certified -/

theorem Certified.seeds (h : Seeds m starts r) : r.Certified m starts := by
  refine ⟨fun c hc => ?_, fun c hc hcs => absurd ((h.isAccepted c).mp hc) hcs⟩
  rw [h.far c (by rw [hc]; decide)] at hc
  cases hc

theorem Reassigned.certified (h1 : Reassigned n r p f k r1) (hr : r.Coherent n)
    (h : r.Certified m starts)
    (hattained : ∀ c, p c → m.Attained r1.solution (r1.acceptedBefore c) c) :
    r1.Certified m starts := by
  have hkeep : ∀ c, ∀ j ∈ r.acceptedBefore c, r1.valueOf j = r.valueOf j := fun c j hj =>
    h1.valueOf_accepted (hr.isAccepted_of_before hj)
  constructor
  · intro c hc
    by_cases hp : p c
    · exact hattained c hp
    · obtain ⟨hs, hv⟩ := h1.outside c hp
      rw [acceptedBefore_eq h1.order]
      exact (h.attained c (hs ▸ hc)).mono (fun _ hj => hj) (hkeep c) hv
  · intro c hc hcs
    rw [h1.isAccepted_eq] at hc
    rw [acceptedBefore_eq h1.order]
    exact (h.certificate c hc hcs).congr (hkeep c) (h1.valueOf_accepted hc)

variable [OrderedScalar α]

theorem Reassigned.attained (h1 : Reassigned n r p f k r1) (hr : r.Coherent n)
    (hc : r.isAccepted c = false) {v : α} (hv : r.arrival m c = some v) (hv1 : r1.valueOf c = v) :
    m.Attained r1.solution (r1.acceptedBefore c) c := by
  rw [acceptedBefore_eq h1.order]
  refine Medium.attained_of_tentative? hv (fun d _ hd => ?_)
    (fun j hj => h1.valueOf_accepted (hr.isAccepted_of_before hj)) hv1
  rw [hr.mem_acceptedBefore hc]
  exact hr.front_accepted d hd

theorem Certified.certificate_of_accepts (h : r.Certified m starts) (hr : r.Sound m)
    (hu : m.mesh.Undirected) (h1 : Accepts m r e r1) :
    m.Certificate r.solution (r.acceptedBefore e.cell) e.cell := by
  have hne : r.isAccepted e.cell = false :=
    hr.coherent.not_accepted (by rw [h1.considered]; decide)
  obtain ⟨v, hv⟩ := hr.reached e.cell h1.considered
  have hle := hr.steady e.cell v h1.considered hv
  -- beside a cell that is not accepted the front holds exactly the accepted cells
  refine (h.attained e.cell h1.considered).certificate (hu.nodup e.cell) (fun d hd => ?_)
    (Scalar.lt_of_le_of_lt hle (Medium.lt_inf_of_tentative? hv)) hv hle
  rw [hr.coherent.mem_acceptedBefore hne, hr.front.contains_of_around hu hne hd]

theorem Certified.accepts (h : r.Certified m starts) (hr : r.Sound m) (hu : m.mesh.Undirected)
    (h1 : Accepts m r e r1) : r1.Certified m starts := by
  have hco := hr.coherent
  constructor
  · intro c hc
    have hc0 : r.stateOf c = .considered := (h1.stateOf_ne (by rw [hc]; decide)).2 ▸ hc
    refine (h.attained c hc0).mono (fun j hj => ?_) (fun j _ => h1.valueOf_eq j) (h1.valueOf_eq c)
    rw [h1.settled.coherent.mem_acceptedBefore
      (h1.settled.coherent.not_accepted (by rw [hc]; decide)), h1.isAccepted_iff]
    exact Or.inr (hco.isAccepted_of_before hj)
  · intro c hc hcs
    rw [h1.isAccepted_iff] at hc
    have hb : r1.acceptedBefore c = r.acceptedBefore c :=
      acceptedBefore_push h1.settled.order (hc.symm.imp_left (hco.mem_order c).mpr)
    rw [hb]
    refine Medium.Certificate.congr ?_ (fun j _ => h1.valueOf_eq j) (h1.valueOf_eq c)
    rcases hc with rfl | hc
    · exact h.certificate_of_accepts hr hu h1
    · exact h.certificate c hc hcs

theorem Certified.widens {cs : List Nat} (h : r1.Certified m starts)
    (hr : r1.Coherent m.mesh.size) (h1 : Widens m r1 cs r2) : r2.Certified m starts := by
  refine Reassigned.certified h1 hr h fun c hc => ?_
  obtain ⟨v, hv⟩ := exists_arrival hc.1 hc.2
  refine Reassigned.attained h1 hr (hr.not_accepted (by rw [hc.2]; decide)) hv ?_
  rw [(h1.inside c hc).2, hv, Option.getD_some]

/-- A relaxed cell keeps its value or takes the one that the front gives it. -/
theorem Certified.relaxes (h : r2.Certified m starts) (hr : r2.Ready m) (h1 : Relaxes m r2 r3) :
    r3.Certified m starts := by
  refine Reassigned.certified h1 hr.coherent h fun c hc => ?_
  obtain ⟨v, hv⟩ := hr.reached c hc
  have hvalue := (h1.inside c hc).2
  rw [relaxed, hv, Option.getD_some] at hvalue
  rcases Scalar.lower_eq_or (r2.valueOf c) v with heq | heq
  · rw [acceptedBefore_eq h1.order]
    exact (h.attained c hc).mono (fun _ hj => hj)
      (fun j hj => h1.valueOf_accepted (hr.coherent.isAccepted_of_before hj)) (hvalue.trans heq)
  · exact Reassigned.attained h1 hr.coherent (hr.coherent.not_accepted (by rw [hc]; decide)) hv
      (hvalue.trans heq)

theorem invariant_certified (hu : m.mesh.Undirected) : Invariant m starts (Certified m starts) where
  seeds := Certified.seeds
  accepts hr h := h.accepts hr hu
  widens hr h := h.widens hr
  relaxes hr h := h.relaxes hr

end Run

namespace Solver

variable [OrderedScalar α] {memory : Memory} {g : CellGrid α} {mesh : Mesh α} {s : Solver α}
  {metric : NdArray α} {starts : Json} {field : MetricField α} {cells : List Nat} {u : Array α}

/-- When a solve returns, the cells accepted before a cell certify the value of the cell. -/
theorem values_certified (hg : Mesh.ofGrid memory g = .ok mesh) (hs : Reachable mesh s)
    (hin : s.checkInput metric starts = .ok (field, cells))
    (hret : (s.solve metric starts).2 = .ok u) (c : Nat)
    (hc : (s.solve metric starts).1.run.isAccepted c) (hcs : c ∉ cells) :
    Medium.Certificate ⟨mesh, field⟩ u ((s.solve metric starts).1.run.acceptedBefore c) c := by
  obtain ⟨rfl, hsized⟩ := hs.sized
  obtain ⟨hasc, hlt⟩ := starts_of_checkInput hin
  have hu := Mesh.undirected_of_ofGrid hg
  obtain ⟨-, hend, -⟩ := (Run.invariant_certified (m := ⟨s.mesh, field⟩) hu).solve hu
    (hasc.imp fun h => Nat.ne_of_lt h) hlt hsized s.bound
  obtain ⟨r, hr, hrun, rfl⟩ := exists_run_of_returned hin hret
  rw [hrun] at hc ⊢
  exact (hend r hr).2.1.certificate c hc hcs

theorem values_certified_sample :
    Medium.Certificate ⟨sampleMesh, sampleField⟩ #[0, 2, Scalar.inf] [0] 1 := by
  have hvalues : ((new sampleMesh none).solve sampleMetric sampleStarts).2.toOption =
      some #[0, 2, Scalar.inf] := by decide +kernel
  have hret : ((new sampleMesh none).solve sampleMetric sampleStarts).2 =
      .ok #[0, 2, Scalar.inf] := by
    cases h : ((new sampleMesh none).solve sampleMetric sampleStarts).2 with
    | error e => simp [h, Except.toOption] at hvalues
    | ok u => simpa [h, Except.toOption] using hvalues
  have hbefore : ((new sampleMesh none).solve sampleMetric sampleStarts).1.run.acceptedBefore 1 =
      [0] := by decide +kernel
  rw [← hbefore]
  exact values_certified ofGrid_sampleGrid (.new none) checkInput_sample hret 1 (by decide +kernel)
    (by decide)

end Solver

end Eikonal
