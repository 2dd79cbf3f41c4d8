import Eikonal.Proofs.Solver.Complete

/-! Components do not meet. A run in which cells of several components take turns looks, within one
of them, like the run from its start cells alone, for any metric that is the same there: a step that
accepts a cell elsewhere changes nothing in the component, and one that accepts a cell of it is the
next step of the other run. -/

namespace Eikonal

variable {α : Type} [Scalar α]

namespace Mesh

/-- No cell of the set has a neighbour outside. -/
def IsClosed (mesh : Mesh α) (K : Set Nat) : Prop :=
  ∀ {c d : Nat}, c ∈ K → d ∈ mesh.around c → d ∈ K

omit [Scalar α] in
theorem isClosed_connected (mesh : Mesh α) (starts : List Nat) :
    mesh.IsClosed (mesh.connected starts) :=
  fun hc hd => mem_connected_of_around hc hd

omit [Scalar α] in
/-- What is linked to cells of a closed set lies in it. -/
theorem IsClosed.connected_subset {mesh : Mesh α} {K : Set Nat} {starts : List Nat}
    (h : mesh.IsClosed K) (hs : ∀ c ∈ starts, c ∈ K) : mesh.connected starts ⊆ K := by
  rintro c ⟨s, hmem, hpath⟩
  induction hpath with
  | refl => exact hs s hmem
  | tail _ hab ih => exact h ih hab

end Mesh

namespace Run

/-- The accepted cells of a set in the order of their acceptance. -/
def orderIn (K : Set Nat) [DecidablePred (· ∈ K)] (r : Run α) : List Nat :=
  r.order.toList.filter (· ∈ K)

/-- Within the set `K` the run `b` is as far as the run `a`. -/
structure AlikeIn (K : Set Nat) [DecidablePred (· ∈ K)] (a b : Run α) : Prop where
  stateOf : ∀ c ∈ K, b.stateOf c = a.stateOf c
  isAccepted : ∀ c ∈ K, b.isAccepted c = a.isAccepted c
  valueOf : ∀ c ∈ K, b.valueOf c = a.valueOf c
  order : b.orderIn K = a.orderIn K

variable {K : Set Nat} [DecidablePred (· ∈ K)] {mesh : Mesh α} {m m' : Medium α}
  {field field' : MetricField α} {starts : List Nat} {a a1 a' b b1 b' r r1 r2 : Run α}
  {n n' k l : Nat} {p q : Nat → Prop} {f g : Nat → α} {e e' : Entry Nat α} {c : Nat}

/-- Changes that are the same within the set. -/
theorem Reassigned.alikeIn (ha : Reassigned n a p f k a') (hb : Reassigned n' b q g l b')
    (h : AlikeIn K a b) (hpq : ∀ d ∈ K, (q d ↔ p d)) (hfg : ∀ d ∈ K, p d → g d = f d) :
    AlikeIn K a' b' := by
  refine ⟨fun d hd => ?_, fun d hd => ?_, fun d hd => ?_, ?_⟩
  · by_cases hpd : p d
    · rw [(ha.inside d hpd).1, (hb.inside d ((hpq d hd).mpr hpd)).1]
    · rw [(ha.outside d hpd).1, (hb.outside d (mt (hpq d hd).mp hpd)).1, h.stateOf d hd]
  · rw [ha.isAccepted_eq, hb.isAccepted_eq, h.isAccepted d hd]
  · by_cases hpd : p d
    · rw [(ha.inside d hpd).2, (hb.inside d ((hpq d hd).mpr hpd)).2, hfg d hd hpd]
    · rw [(ha.outside d hpd).2, (hb.outside d (mt (hpq d hd).mp hpd)).2, h.valueOf d hd]
  · rw [orderIn, orderIn, ha.order, hb.order]
    exact h.order

theorem Accepts.orderIn_eq (h : Accepts m r e r1) :
    r1.orderIn K = r.orderIn K ++ if e.cell ∈ K then [e.cell] else [] := by
  rw [orderIn, orderIn, h.settled.order, Array.toList_push, List.filter_append]
  by_cases hc : e.cell ∈ K <;> simp [hc]

theorem Accepts.alikeIn (ha : Accepts m a e a1) (hb : Accepts m' b e b1) (h : AlikeIn K a b) :
    AlikeIn K a1 b1 := by
  refine ⟨fun d hd => ?_, fun d hd => ?_, fun d hd => ?_, ?_⟩
  · rw [ha.settled.stateOf, hb.settled.stateOf, h.stateOf d hd]
  · rw [ha.settled.isAccepted, hb.settled.isAccepted, h.isAccepted d hd]
  · rw [ha.valueOf_eq, hb.valueOf_eq, h.valueOf d hd]
  · rw [ha.orderIn_eq, hb.orderIn_eq, h.order]

/-- A step leaves alone what is neither accepted in it nor next to the cell that is. -/
theorem Accepts.eq_of_not_around [OrderedScalar α] (h : Accepts m r e r1) (hr : r.Sound m)
    (hu : m.mesh.Undirected) (hw : Widens m r1 (m.mesh.around e.cell) r2)
    (hall : Relaxes m r2 a') (hc : c ≠ e.cell) (hce : c ∉ m.mesh.around e.cell) :
    a'.stateOf c = r.stateOf c ∧ a'.isAccepted c = r.isAccepted c ∧ a'.valueOf c = r.valueOf c := by
  have hout : ¬(c ∈ (m.mesh.around e.cell).takeWhile (fun c => !r1.isStuck m c) ∧
      r1.stateOf c = .far) := fun hin => hce ((List.takeWhile_prefix _).subset hin.1)
  obtain ⟨hs, hv⟩ := hw.outside c hout
  refine ⟨?_, ?_, ?_⟩
  · rw [hall.stateOf_eq, hs, h.settled.stateOf, if_neg hc]
  · rw [hall.isAccepted_eq, hw.isAccepted_eq, h.settled.isAccepted,
      beq_eq_false_iff_ne.mpr (Ne.symm hc), Bool.false_or]
  · rw [← h.valueOf_eq c, ← hv]
    by_cases hcc : r2.stateOf c = .considered
    · have hfalls := h.falls_eq_false hr hu hw hcc fun hin => hce hin.1
      rw [(hall.inside c hcc).2, relaxed, Scalar.lower_eq_left hfalls]
    · exact (hall.outside c hcc).2

/-- A step that accepts a cell outside a closed set changes nothing in it. -/
theorem AlikeIn.step_outside [OrderedScalar α] (h : AlikeIn K a b)
    (hK : m.mesh.IsClosed K) (hu : m.mesh.Undirected) (ha : a.Sound m) (hacc : Accepts m a e a1)
    (hw : Widens m a1 (m.mesh.around e.cell) r2) (hall : Relaxes m r2 a') (he : e.cell ∉ K) :
    AlikeIn K a' b := by
  have hfar : ∀ c ∈ K, c ≠ e.cell ∧ c ∉ m.mesh.around e.cell := fun c hc =>
    ⟨fun heq => he (heq ▸ hc), fun hce => he (hK hc (hu.symm hce))⟩
  have heq := fun c hc =>
    hacc.eq_of_not_around ha hu hw hall (hfar c hc).1 (hfar c hc).2
  refine ⟨fun c hc => ?_, fun c hc => ?_, fun c hc => ?_, ?_⟩
  · rw [(heq c hc).1, h.stateOf c hc]
  · rw [(heq c hc).2.1, h.isAccepted c hc]
  · rw [(heq c hc).2.2, h.valueOf c hc]
  · have horder : a'.orderIn K = a1.orderIn K := by
      rw [orderIn, orderIn, hall.order, hw.order]
    rw [horder, hacc.orderIn_eq, if_neg he, List.append_nil, h.order]

section Component

variable (hK : mesh.IsClosed K) (hu : mesh.Undirected)
  (hfield : ∀ c ∈ K, field'.getD c default = field.getD c default)
include hK hu hfield

section Offer

variable (h : AlikeIn K a b) (ha : a.Coherent mesh.size) (haf : a.FrontExact mesh)
  (hbf : b.FrontExact mesh)
include h ha haf hbf

/-- Next to a cell of the set that is not accepted both fronts hold the same cells. -/
theorem AlikeIn.arrival_eq (hc : c ∈ K) (hne : a.stateOf c ≠ .accepted) :
    b.arrival ⟨mesh, field'⟩ c = a.arrival ⟨mesh, field⟩ c := by
  have hnot := ha.not_accepted hne
  unfold arrival
  rw [Medium.tentative?_of_tensor (hfield c hc)]
  refine Medium.tentative?_congr (fun d hd => ?_) fun d hd _ => h.valueOf d (hK hc hd)
  rw [haf.contains_of_around hu hnot hd,
    hbf.contains_of_around hu (by rwa [h.isAccepted c hc]) hd, h.isAccepted d (hK hc hd)]

theorem AlikeIn.isStuck_eq (hc : c ∈ K) :
    b.isStuck ⟨mesh, field'⟩ c = a.isStuck ⟨mesh, field⟩ c := by
  unfold isStuck
  rw [h.stateOf c hc]
  by_cases hfar : a.stateOf c = .far
  · rw [h.arrival_eq hK hu hfield ha haf hbf hc (by rw [hfar]; decide)]
  · simp [hfar]

theorem AlikeIn.find?_isStuck {cs cs' : List Nat} (hcs : ∀ c ∈ cs', c ∈ cs ∧ c ∈ K)
    (hstuck : cs.find? (a.isStuck ⟨mesh, field⟩) = none) :
    cs'.find? (b.isStuck ⟨mesh, field'⟩) = none := by
  rw [List.find?_eq_none] at hstuck ⊢
  intro c hc
  rw [h.isStuck_eq hK hu hfield ha haf hbf (hcs c hc).2]
  exact hstuck c (hcs c hc).1

theorem AlikeIn.widens {cs cs' : List Nat} (hw : Widens ⟨mesh, field⟩ a cs a1)
    (hw' : Widens ⟨mesh, field'⟩ b cs' b1)
    (hstuck : cs.find? (a.isStuck ⟨mesh, field⟩) = none)
    (hstuck' : cs'.find? (b.isStuck ⟨mesh, field'⟩) = none)
    (hcs : ∀ d ∈ K, (d ∈ cs' ↔ d ∈ cs)) : AlikeIn K a1 b1 := by
  refine (hw.reassigned hstuck).alikeIn (hw'.reassigned hstuck') h
    (fun d hd => by rw [hcs d hd, h.stateOf d hd]) fun d hd hp => ?_
  rw [h.arrival_eq hK hu hfield ha haf hbf hd (by rw [hp.2]; decide)]

theorem AlikeIn.relaxes (hall : Relaxes ⟨mesh, field⟩ a a1)
    (hall' : Relaxes ⟨mesh, field'⟩ b b1) : AlikeIn K a1 b1 := by
  refine Reassigned.alikeIn hall hall' h (fun d hd => by rw [h.stateOf d hd]) fun d hd hp => ?_
  rw [relaxed, relaxed, h.valueOf d hd,
    h.arrival_eq hK hu hfield ha haf hbf hd (by rw [hp]; decide)]

end Offer

variable [LawfulScalar α]

/-- A step that accepts a cell of the set is a step of the other run, whose considered cells all lie
in the set. -/
theorem AlikeIn.step_inside (h : AlikeIn K a b) (ha : a.Sound ⟨mesh, field⟩)
    (hb : b.Sound ⟨mesh, field'⟩) (hin : ∀ c, b.stateOf c = .considered → c ∈ K)
    (hacc : Accepts ⟨mesh, field⟩ a e a1) (hw : Widens ⟨mesh, field⟩ a1 (mesh.around e.cell) r2)
    (hstuck : (mesh.around e.cell).find? (a1.isStuck ⟨mesh, field⟩) = none)
    (hall : Relaxes ⟨mesh, field⟩ r2 a') (he : e.cell ∈ K) :
    ∃ b', b.step ⟨mesh, field'⟩ = .ok b' ∧ AlikeIn K a' b' := by
  have hne : b.considered.isEmpty = false := by
    rw [Bool.eq_false_iff, ne_eq, hb.coherent.isEmpty_iff]
    exact fun hnone => hnone e.cell (by rw [h.stateOf _ he, hacc.considered])
  obtain ⟨e', b1, b2, hacc', hw', hcase⟩ := hb.step hu hne
  obtain rfl : e' = e := hacc.entry_eq hacc' ha.coherent fun c hc => by
    have hcK : c ∈ K := hc.elim (fun hc => hc ▸ he) fun hc => hc ▸ hin _ hacc'.considered
    exact ⟨h.stateOf c hcK, h.valueOf c hcK⟩
  have h1 := hacc.alikeIn hacc' h
  have hstuck' := h1.find?_isStuck hK hu hfield hacc.settled.coherent hacc.front hacc'.front
    (fun c hc => ⟨hc, hK he hc⟩) hstuck
  have h2 := h1.widens hK hu hfield hacc.settled.coherent hacc.front hacc'.front hw hw' hstuck
    hstuck' fun d _ => Iff.rfl
  dsimp only at hcase
  rw [hstuck'] at hcase
  obtain ⟨-, b', hb', hall', -⟩ := hcase
  exact ⟨b', hb', h2.relaxes hK hu hfield hw.coherent (hacc.front.congr hw.front hw.accepted)
    (hacc'.front.congr hw'.front hw'.accepted) hall hall'⟩

/-- The start phase from the start cells in the set. -/
theorem exists_alikeIn_seed (hn : starts.Nodup) (hlt : ∀ c ∈ starts, c < mesh.size)
    (hseed : (fresh mesh.size).seed ⟨mesh, field⟩ starts = .ok a) :
    ∃ b, (fresh mesh.size).seed ⟨mesh, field'⟩ (starts.filter (· ∈ K)) = .ok b ∧
      AlikeIn K a b := by
  obtain ⟨a1, a2, hs, hw, ⟨c, -, -, herr⟩ | ⟨hstuck, hok, -⟩⟩ :=
    seed_cases (m := ⟨mesh, field⟩) hu hn hlt
  · rw [herr] at hseed
    cases hseed
  rw [hok] at hseed
  cases hseed
  have hmem : ∀ c, c ∈ starts.filter (· ∈ K) ↔ c ∈ starts ∧ c ∈ K := fun c => by
    rw [List.mem_filter, decide_eq_true_eq]
  have hnear : ∀ d, d ∈ (starts.filter (· ∈ K)).flatMap mesh.around ↔
      d ∈ starts.flatMap mesh.around ∧ d ∈ K := by
    intro d
    simp only [List.mem_flatMap, hmem]
    constructor
    · rintro ⟨c, ⟨hc, hcK⟩, hd⟩
      exact ⟨⟨c, hc, hd⟩, hK hcK hd⟩
    · rintro ⟨⟨c, hc, hd⟩, hdK⟩
      exact ⟨c, ⟨hc, hK hdK (hu.symm hd)⟩, hd⟩
  obtain ⟨b1, b2, hs', hw', hcase⟩ := seed_cases (m := ⟨mesh, field'⟩) hu (hn.filter _)
    fun c hc => hlt c ((hmem c).mp hc).1
  have h1 : AlikeIn K a1 b1 := by
    refine ⟨fun c hc => ?_, fun c hc => ?_, fun c hc => ?_, ?_⟩
    · rw [hs.stateOf_eq, hs'.stateOf_eq]
      simp only [hmem, hc, and_true]
    · rw [Bool.eq_iff_iff, hs.isAccepted, hs'.isAccepted, hmem]
      exact and_iff_left hc
    · rw [hs.valueOf_eq, hs'.valueOf_eq]
      simp only [hmem, hc, and_true]
    · rw [orderIn, orderIn, hs.order, hs'.order]
      simp
  have hstuck' := h1.find?_isStuck hK hu hfield hs.coherent hs.front hs'.front
    (fun c hc => (hnear c).mp hc) hstuck
  rcases hcase with ⟨c, hc, hcs, -⟩ | ⟨-, hok', -⟩
  · rw [List.find?_eq_none] at hstuck'
    exact absurd hcs (hstuck' c hc)
  · refine ⟨b2, hok', h1.widens hK hu hfield hs.coherent hs.front hs'.front hw hw' hstuck hstuck'
      ?_⟩
    exact fun d hd => (hnear d).trans (and_iff_left hd)

/-- The run from the start cells in the set comes to its end if the other does: it waits while that
one accepts cells elsewhere. -/
theorem AlikeIn.advance (bound : Int) (h : AlikeIn K a b) (ha : a.Sound ⟨mesh, field⟩)
    (hb : b.Linked ⟨mesh, field'⟩ starts) (hstarts : ∀ c ∈ starts, c ∈ K)
    (hend : advance ⟨mesh, field⟩ bound a = .ok a') :
    ∃ b', advance ⟨mesh, field'⟩ mesh.size b = .ok b' ∧ AlikeIn K a' b' := by
  have hin : ∀ b : Run α, b.Linked ⟨mesh, field'⟩ starts →
      ∀ c, b.stateOf c = .considered → c ∈ K := fun b hb c hc =>
    hK.connected_subset hstarts (hb.linked c (Or.inr hc))
  induction a using advance.induct ⟨mesh, field⟩ bound generalizing b with
  | case1 a he =>
    rw [Run.advance, if_pos he] at hend
    cases hend
    have he' : b.considered.isEmpty := hb.coherent.isEmpty_iff.mpr fun c hc =>
      ha.coherent.isEmpty_iff.mp he c (by rw [← h.stateOf c (hin b hb c hc), hc])
    exact ⟨b, by rw [Run.advance, if_pos he'], h⟩
  | case2 a he hbound =>
    rw [Run.advance, if_neg he, if_pos hbound] at hend
    cases hend
  | case3 a he hbound x hstep =>
    rw [advance_of_error (by simpa using he) (by omega) hstep] at hend
    cases hend
  | case4 a he hbound a1 hstep ih =>
    rw [advance_of_ok (by simpa using he) (by omega) hstep] at hend
    obtain ⟨e, a0, a2, hacc, hw, hstuck, -, hall, ha1⟩ := ha.parts_of_step hu hstep
    by_cases hc : e.cell ∈ K
    · obtain ⟨b1, hstep', h1⟩ := h.step_inside hK hu hfield ha hb.toSound (hin b hb) hacc hw hstuck
        hall hc
      have hconsidered : b.stateOf e.cell = .considered := by
        rw [h.stateOf _ hc, hacc.considered]
      have hcount : b.iterations < mesh.size := by
        have hlt := hb.coherent.order_lt hconsidered
        have hsize := hb.count
        dsimp only at hlt
        omega
      rw [advance_of_ok (isEmpty_of_step hstep') (by omega) hstep']
      exact ih h1 ha1 (hb.of_step hu hstep') hend
    · exact ih (h.step_outside hK hu ha hacc hw hall hc) ha1 hb hend

/-- Where a solve comes to its end, so does the one from its start cells in a closed set, in which
they leave the same. -/
theorem exists_alikeIn_solve {bound : Int} (hn : starts.Nodup) (hlt : ∀ c ∈ starts, c < mesh.size)
    (ha : a.Sized mesh.size) (hb : b.Sized mesh.size)
    (hend : a.solve ⟨mesh, field⟩ bound starts = .ok a') :
    ∃ b', b.solve ⟨mesh, field'⟩ mesh.size (starts.filter (· ∈ K)) = .ok b' ∧
      AlikeIn K a' b' := by
  unfold solve at hend ⊢
  rw [ha.reset] at hend
  rw [hb.reset]
  cases hseed : (fresh mesh.size).seed ⟨mesh, field⟩ starts with
  | error e =>
    rw [hseed] at hend
    cases hend
  | ok a1 =>
    rw [hseed] at hend
    obtain ⟨b1, hseed', h1⟩ := exists_alikeIn_seed hK hu hfield hn hlt hseed
    have hlinked := linked_seed (m := ⟨mesh, field'⟩) hu (hn.filter (· ∈ K))
      fun c hc => hlt c (List.mem_filter.mp hc).1
    rw [hseed'] at hlinked ⊢
    exact h1.advance hK hu hfield bound (sound_of_seed (m := ⟨mesh, field⟩) hu hn hlt hseed) hlinked
      (fun c hc => by simpa using (List.mem_filter.mp hc).2) hend

end Component

end Run

namespace Solver

variable [LawfulScalar α] {memory : Memory} {g : CellGrid α} {mesh : Mesh α} {s t : Solver α}
  {metric metric' : NdArray α} {starts starts' : Json} {field field' : MetricField α}
  {cells cells' : List Nat}

/-- With finite line updates a solve leaves in a connected component what a solve from its start
cells in this component alone leaves there, for any metric that is the same in the component: both
return, with the same values in the component, and accept its cells in the same order. -/
theorem components_independent (hg : Mesh.ofGrid memory g = .ok mesh) (hs : Reachable mesh s)
    (ht : Reachable mesh t) (hbs : s.bound? = none) (hbt : t.bound? = none)
    (hin : s.checkInput metric starts = .ok (field, cells))
    (hin' : t.checkInput metric' starts' = .ok (field', cells'))
    (hl : (s.solve metric starts).1.run.LinesFinite ⟨mesh, field⟩)
    (k : Nat) [DecidablePred (· ∈ mesh.connected [k])]
    (hfield : ∀ c ∈ mesh.connected [k], field'.getD c default = field.getD c default)
    (hcells : ∀ c, c ∈ cells' ↔ c ∈ cells ∧ c ∈ mesh.connected [k]) :
    ∃ u u', (s.solve metric starts).2 = .ok u ∧ (t.solve metric' starts').2 = .ok u' ∧
      (∀ c ∈ mesh.connected [k], u'[c]? = u[c]?) ∧
      (t.solve metric' starts').1.run.orderIn (mesh.connected [k]) =
        (s.solve metric starts).1.run.orderIn (mesh.connected [k]) := by
  obtain ⟨rfl, hsized⟩ := hs.sized
  obtain ⟨hmesh, hsized'⟩ := ht.sized
  obtain ⟨hasc, hlt⟩ := starts_of_checkInput hin
  have hu := Mesh.undirected_of_ofGrid hg
  have hn : cells.Nodup := hasc.imp fun h => Nat.ne_of_lt h
  have hfilter : cells' = cells.filter (· ∈ s.mesh.connected [k]) := by
    refine (starts_of_checkInput hin').1.eq_of_mem_iff (hasc.filter _) fun c => ?_
    rw [hcells, List.mem_filter, decide_eq_true_eq]
  rw [run_solve hin, bound_of_none hbs] at hl
  obtain ⟨a, hsolve, -⟩ := Run.exists_complete_solve (m := ⟨s.mesh, field⟩) hu hn hlt hsized hl
  obtain ⟨b, hsolve', h⟩ := Run.exists_alikeIn_solve (s.mesh.isClosed_connected [k]) hu hfield hn
    hlt hsized hsized' hsolve
  rw [← hfilter] at hsolve'
  rw [(solve_eq hin).2, (solve_eq hin').2, run_solve hin, run_solve hin', bound_of_none hbs,
    bound_of_none hbt, hmesh, hsolve, hsolve']
  refine ⟨_, _, rfl, rfl, fun c hc => ?_, h.order⟩
  have ha : a.Sized s.mesh.size := by
    have := hsized.solve (m := ⟨s.mesh, field⟩) s.mesh.size cells
    rwa [hsolve] at this
  have hb : b.Sized s.mesh.size := by
    have := hsized'.solve (m := ⟨s.mesh, field'⟩) s.mesh.size cells'
    rwa [hsolve'] at this
  have hvalue : b.solution.getD c Scalar.inf = a.solution.getD c Scalar.inf := h.valueOf c hc
  rw [Array.getD_eq_getD_getElem?, Array.getD_eq_getD_getElem?] at hvalue
  by_cases hlt : c < s.mesh.size
  · rw [Array.getElem?_eq_getElem (hb.solution ▸ hlt),
      Array.getElem?_eq_getElem (ha.solution ▸ hlt)] at hvalue ⊢
    exact congrArg some hvalue
  · rw [Array.getElem?_eq_none (by rw [hb.solution]; omega),
      Array.getElem?_eq_none (by rw [ha.solution]; omega)]

/-- The first pair is left as it is where the second has another metric and no start cell. -/
theorem components_independent_sample : ∃ u u',
    ((new pairsMesh none).solve pairsMetric pairsStarts).2 = .ok u ∧
      ((new pairsMesh none).solve
          { shape := [16], items := #[1, 0, 0, 1, 9, 0, 0, 9, 4, 0, 0, 4, 4, 0, 0, 4] }
          (.array [.int 0])).2 = .ok u' ∧
        u'[1]? = u[1]? := by
  have hsize : (new pairsMesh none).size = 4 := size_pairsMesh
  have hpair : ∀ c ∈ pairsMesh.connected [0], c < 2 := by
    refine Mesh.IsClosed.connected_subset (K := {c | c < 2}) (fun {c d} hc hd => ?_) (by simp)
    have hall : ∀ c < 2, ∀ d ∈ pairsMesh.around c, d < 2 := by decide +kernel
    exact hall c hc d hd
  have hzero : 0 ∈ pairsMesh.connected [0] := Mesh.mem_connected_of_mem (by simp)
  have hone : 1 ∈ pairsMesh.connected [0] :=
    Mesh.mem_connected_of_around hzero (by decide +kernel)
  have hother : (new pairsMesh none).checkInput
      { shape := [16], items := #[1, 0, 0, 1, 9, 0, 0, 9, 4, 0, 0, 4, 4, 0, 0, 4] }
      (.array [.int 0]) =
        .ok (#[⟨1, 0, 0, 1⟩, ⟨9, 0, 0, 9⟩, ⟨4, 0, 0, 4⟩, ⟨4, 0, 0, 4⟩], [0]) := by
    rw [checkInput_eq_ok_iff, MetricField.ofArray_eq_ok_iff, hsize]
    exact ⟨by decide +kernel, rfl⟩
  have hequal : ∀ c < 2, Array.getD (#[⟨1, 0, 0, 1⟩, ⟨9, 0, 0, 9⟩, ⟨4, 0, 0, 4⟩, ⟨4, 0, 0, 4⟩] :
      MetricField Float) c default = pairsField.getD c default := by decide +kernel
  classical
  obtain ⟨u, u', hu, hu', heq, -⟩ := components_independent ofGrid_pairsGrid (.new none) (.new none)
    rfl rfl (checkInput_pairs none) hother linesFinite_pairs 0
    (fun c hc => hequal c (hpair c hc)) fun c => by
      rw [List.mem_singleton]
      constructor
      · rintro rfl
        exact ⟨by simp, hzero⟩
      · rintro ⟨hc, hK⟩
        have := hpair c hK
        simp at hc
        omega
  exact ⟨u, u', hu, hu', heq 1 hone⟩

end Solver

end Eikonal
