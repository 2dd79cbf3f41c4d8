import Eikonal.Proofs.Solver.Causal
import Mathlib.Data.Set.Card

/-! A solve reaches the connected components of its start cells and stops there. Every reason to
stop early is excluded by what holds between the steps: a new cell has a neighbour on the front from
which a line reaches it, a valid heap refuses nothing, and every acceptance takes another cell. -/

namespace Eikonal

variable {α : Type} [Scalar α]

namespace Run

/-- Every line update from an accepted cell with a finite value to a neighbour is finite. -/
def LinesFinite (m : Medium α) (r : Run α) : Prop :=
  ∀ j, r.isAccepted j → Scalar.isFinite (r.valueOf j) → ∀ c ∈ m.mesh.around j,
    Scalar.isFinite (m.fromLine r.solution c j)

/-- A causal run whose cells are linked to the start cells, with the start cells accepted and all
other acceptances counted. -/
structure Linked (m : Medium α) (starts : List Nat) (r : Run α) : Prop extends Causal m r where
  linked : ∀ c, r.isAccepted c ∨ r.stateOf c = .considered → c ∈ m.mesh.connected starts
  below : ∀ c, r.isAccepted c → Scalar.lt (r.valueOf c) Scalar.inf
  started : ∀ c ∈ starts, r.isAccepted c ∧ r.valueOf c = Scalar.zero
  count : r.order.size = r.iterations + starts.length

/-- What a solve leaves at its end: the cells linked to the start cells are accepted, with finite
values, and nothing has happened to the others. -/
structure Complete (mesh : Mesh α) (starts : List Nat) (r : Run α) : Prop where
  sized : r.Sized mesh.size
  accepted_iff : ∀ c < mesh.size, c ∈ mesh.connected starts ↔
    r.stateOf c = .accepted ∧ Scalar.isFinite (r.valueOf c) ∧ Scalar.le Scalar.zero (r.valueOf c)
  far : ∀ c < mesh.size, c ∉ mesh.connected starts →
    r.stateOf c = .far ∧ r.valueOf c = Scalar.inf
  front : r.front.toList = []
  considered : r.considered.size = 0
  starts_zero : ∀ c ∈ starts, r.valueOf c = Scalar.zero
  iterations : r.iterations + starts.length = (mesh.connected starts).ncard

variable {m : Medium α} {starts : List Nat} {n k : Nat} {r r' r1 r2 : Run α} {e : Entry Nat α}
  {c d : Nat}

omit [Scalar α] in
theorem Sized.order_subset (hr : r.Sized n) (hmem : ∀ c, c ∈ r.order ↔ r.isAccepted c) :
    ∀ c ∈ r.order.toList, c < n :=
  fun c hc => hr.lt_of_isAccepted ((hmem c).mp (Array.mem_def.mpr hc))

/-- While a cell is considered, fewer cells are accepted than there are. -/
theorem Coherent.order_lt (hr : r.Coherent n) (hc : r.stateOf c = .considered) :
    r.order.size < n := by
  have hne : r.stateOf c ≠ .accepted := by rw [hc]; decide
  have hnot : c ∉ r.order.toList := by
    intro h
    have := (hr.mem_order c).mp (Array.mem_def.mpr h)
    rw [hr.not_accepted hne] at this
    cases this
  have hsub : (c :: r.order.toList).toFinset ⊆ Finset.range n := by
    intro d hd
    rw [List.mem_toFinset, List.mem_cons] at hd
    rw [Finset.mem_range]
    rcases hd with rfl | hd
    · exact hr.sized.lt_of_stateOf hne
    · exact hr.sized.order_subset hr.mem_order d hd
  have hcard := Finset.card_le_card hsub
  rw [List.toFinset_card_of_nodup (List.nodup_cons.mpr ⟨hnot, hr.nodup⟩), Finset.card_range,
    List.length_cons, Array.length_toList] at hcard
  omega

/-- A line update depends on accepted values only. -/
theorem Reassigned.linesFinite {p : Nat → Prop} {f : Nat → α} (h : Reassigned n r p f k r')
    (hl : r'.LinesFinite m) : r.LinesFinite m := by
  intro j hj hfin c hc
  have hv := h.valueOf_accepted hj
  have := hl j (by rwa [h.isAccepted_eq]) (by rwa [hv]) c hc
  unfold Medium.fromLine at this ⊢
  rwa [show r'.solution.getD j Scalar.inf = r.solution.getD j Scalar.inf from hv] at this

/-- A linked run in which no cell is considered has accepted all cells linked to the start cells. -/
theorem Linked.isAccepted_iff (hr : r.Linked m starts) (hu : m.mesh.Undirected)
    (hnone : ∀ c, r.stateOf c ≠ .considered) :
    r.isAccepted c ↔ c ∈ m.mesh.connected starts := by
  constructor
  · exact fun hc => hr.linked c (Or.inl hc)
  · rintro ⟨s, hs, hpath⟩
    induction hpath with
    | refl => exact (hr.started s hs).1
    | @tail a b _ hab ih =>
      by_contra hn
      have hb : r.stateOf b = .far := by
        cases hs : r.stateOf b with
        | far => rfl
        | considered => exact absurd hs (hnone b)
        | accepted => exact absurd ((hr.coherent.accepted_iff b (hu.lt_right hab)).mpr hs) hn
      rw [hr.aloof b hb a (hu.symm hab)] at ih
      cases ih

variable [LawfulScalar α]

theorem Linked.isFinite_valueOf (hr : r.Linked m starts) (hc : r.isAccepted c) :
    Scalar.isFinite (r.valueOf c) :=
  OrderedScalar.isFinite_of_lt_inf (hr.nonneg c (Or.inl hc)) (hr.below c hc)

/-- With finite line updates no neighbour of an accepted cell with a finite value is stuck: the
accepted cell stands on the front while a neighbour is far, and a line leads from it. -/
theorem LinesFinite.isStuck_eq_false (hl : r.LinesFinite m) (hr : r.Coherent m.mesh.size)
    (hf : r.FrontExact m.mesh) (hu : m.mesh.Undirected) (hd : r.isAccepted d)
    (hfin : Scalar.isFinite (r.valueOf d)) (hc : c ∈ m.mesh.around d) :
    r.isStuck m c = false := by
  unfold isStuck
  by_cases hfar : r.stateOf c = .far
  · have hne : r.stateOf c ≠ .accepted := by rw [hfar]; decide
    have hfront : r.front.contains d := by
      rw [hf.contains_of_around hu (hr.not_accepted hne) (hu.symm hc), hd]
    obtain ⟨v, hv⟩ : ∃ v, r.arrival m c = some v :=
      Medium.exists_tentative?_of_line (Medium.mem_upwind.mpr ⟨hu.symm hc, hfront⟩)
        (OrderedScalar.lt_inf_of_isFinite (hl d hd hfin c hc))
    simp [hv]
  · simp [hfar]

/-- With finite line updates a step succeeds, and it keeps the run linked. -/
theorem Linked.step (hr : r.Linked m starts) (hu : m.mesh.Undirected)
    (hne : r.considered.isEmpty = false) :
    match r.step m with
    | .ok r' => r'.Linked m starts
    | .error e => ¬e.run.LinesFinite m := by
  obtain ⟨e, r1, r2, h, hw, hcase⟩ := hr.toSound.step hu hne
  have hcausal := hr.toCausal.step hu hne
  have hlt : Scalar.lt e.value Scalar.inf := by
    obtain ⟨v, hv⟩ := hr.reached e.cell h.considered
    rw [← h.value]
    exact Scalar.lt_of_le_of_lt (hr.steady e.cell v h.considered hv)
      (Medium.lt_inf_of_tentative? hv)
  have hacc : ∀ c, r1.isAccepted c → c = e.cell ∨ r.isAccepted c := by
    intro c hc
    exact (h.isAccepted_iff.mp hc).imp_left Eq.symm
  have hself : r1.isAccepted e.cell := by simp [h.settled.isAccepted]
  split at hcase
  · rename_i c hc
    rw [hcase]
    intro hfinite
    have hval : Scalar.isFinite (r1.valueOf e.cell) := by
      refine OrderedScalar.isFinite_of_lt_inf (h.nonneg hr.toCausal hself) ?_
      rw [h.valueOf_eq, h.value]
      exact hlt
    have hfree := (Reassigned.linesFinite hw hfinite).isStuck_eq_false h.settled.coherent h.front hu
      hself hval (List.mem_of_find?_eq_some hc)
    rw [List.find?_some hc] at hfree
    cases hfree
  · obtain ⟨hready, r3, hr3, hall, -⟩ := hcase
    rw [hr3] at hcausal ⊢
    have hvalue : ∀ c, r1.isAccepted c → r3.valueOf c = r.valueOf c := by
      intro c hc
      rw [hall.valueOf_accepted (by rwa [hw.isAccepted_eq]), hw.valueOf_accepted hc, h.valueOf_eq]
    have hacc3 : ∀ c, r3.isAccepted c = r1.isAccepted c := by
      intro c
      rw [hall.isAccepted_eq, hw.isAccepted_eq]
    refine ⟨hcausal, ?_, ?_, ?_, ?_⟩
    · rintro c (hc | hc)
      · rw [hacc3] at hc
        rcases hacc c hc with rfl | hc
        · exact hr.linked e.cell (Or.inr h.considered)
        · exact hr.linked c (Or.inl hc)
      · rcases hw.considered (hall.stateOf_eq c ▸ hc) with ⟨hc1, -⟩ | ⟨-, hce, -⟩
        · exact hr.linked c (Or.inr ((h.stateOf_ne (by rw [hc1]; decide)).2 ▸ hc1))
        · exact Mesh.mem_connected_of_around (hr.linked e.cell (Or.inr h.considered)) hce
    · intro c hc
      rw [hacc3] at hc
      rw [hvalue c hc]
      rcases hacc c hc with rfl | hc
      · rw [h.value]
        exact hlt
      · exact hr.below c hc
    · intro c hc
      obtain ⟨hca, hcv⟩ := hr.started c hc
      have hc1 : r1.isAccepted c := by rw [h.settled.isAccepted, hca, Bool.or_true]
      exact ⟨by rwa [hacc3], by rw [hvalue c hc1, hcv]⟩
    · rw [hall.order, hw.order, h.settled.order, Array.size_push, hr.count, hall.iterations,
        hw.iterations, h.iterations]
      omega

theorem Linked.of_step (hr : r.Linked m starts) (hu : m.mesh.Undirected)
    (hs : r.step m = .ok r') : r'.Linked m starts := by
  have := hr.step hu (isEmpty_of_step hs)
  rwa [hs] at this

theorem Linked.exists_step (hr : r.Linked m starts) (hu : m.mesh.Undirected)
    (hl : ∀ r : Run α, r.LinesFinite m) (hne : r.considered.isEmpty = false) :
    ∃ r', r.step m = .ok r' ∧ r'.Linked m starts := by
  have hstep := hr.step hu hne
  cases hs : r.step m with
  | error e =>
    rw [hs] at hstep
    exact absurd (hl e.run) hstep
  | ok r' =>
    rw [hs] at hstep
    exact ⟨r', rfl, hstep⟩

/-- With finite line updates the start phase succeeds, and it leaves a linked run. -/
theorem linked_seed (hu : m.mesh.Undirected) (hn : starts.Nodup)
    (hlt : ∀ c ∈ starts, c < m.mesh.size) :
    match (fresh m.mesh.size).seed m starts with
    | .ok r => r.Linked m starts
    | .error e => ¬e.run.LinesFinite m := by
  obtain ⟨r1, r2, h, hw, hcase⟩ := seed_cases hu hn hlt
  have hcausal := causal_seed hu hn hlt
  have hzero : Scalar.le (Scalar.zero : α) Scalar.zero := Scalar.le_refl Scalar.isNaN_zero
  rcases hcase with ⟨c, hc, hstuck, hs⟩ | ⟨-, hs, -⟩
  · rw [hs]
    intro hfinite
    obtain ⟨d, hd, hcd⟩ := List.mem_flatMap.mp hc
    have hval : Scalar.isFinite (r1.valueOf d) := by
      rw [h.zero d hd]
      exact OrderedScalar.isFinite_of_lt_inf hzero OrderedScalar.zero_lt_inf
    have hfree := (Reassigned.linesFinite hw hfinite).isStuck_eq_false h.coherent h.front hu
      ((h.isAccepted d).mpr hd) hval hcd
    rw [hstuck] at hfree
    cases hfree
  · rw [hs] at hcausal ⊢
    have hacc : ∀ c, r2.isAccepted c ↔ c ∈ starts := fun c => by
      rw [hw.isAccepted_eq, h.isAccepted]
    have hvalue : ∀ c ∈ starts, r2.valueOf c = Scalar.zero := fun c hc => by
      rw [hw.valueOf_accepted ((h.isAccepted c).mpr hc), h.zero c hc]
    refine ⟨hcausal, ?_, ?_, fun c hc => ⟨(hacc c).mpr hc, hvalue c hc⟩, ?_⟩
    · rintro c (hc | hc)
      · exact Mesh.mem_connected_of_mem ((hacc c).mp hc)
      · rcases hw.considered hc with ⟨hc1, -⟩ | ⟨-, hcs, -⟩
        · rw [h.far c (by rw [hc1]; decide)] at hc1
          cases hc1
        · obtain ⟨d, hd, hcd⟩ := List.mem_flatMap.mp hcs
          exact Mesh.mem_connected_of_around (Mesh.mem_connected_of_mem hd) hcd
    · intro c hc
      rw [hvalue c ((hacc c).mp hc)]
      exact OrderedScalar.zero_lt_inf
    · rw [hw.order, h.order, hw.iterations, h.iterations]
      simp

theorem exists_linked_seed (hu : m.mesh.Undirected) (hl : ∀ r : Run α, r.LinesFinite m)
    (hn : starts.Nodup) (hlt : ∀ c ∈ starts, c < m.mesh.size) :
    ∃ r, (fresh m.mesh.size).seed m starts = .ok r ∧ r.Linked m starts := by
  have hseed := linked_seed hu hn hlt
  cases hs : (fresh m.mesh.size).seed m starts with
  | error e =>
    rw [hs] at hseed
    exact absurd (hl e.run) hseed
  | ok r =>
    rw [hs] at hseed
    exact ⟨r, rfl, hseed⟩

/-- A solve that comes to its end leaves a linked run in which no cell is considered. -/
theorem linked_solve (hu : m.mesh.Undirected) (hn : starts.Nodup)
    (hlt : ∀ c ∈ starts, c < m.mesh.size) (hr : r.Sized m.mesh.size) {bound : Int}
    (h : solve m bound starts r = .ok r') :
    r'.Linked m starts ∧ r'.considered.isEmpty := by
  refine of_solve_eq_ok (fun r1 hs => ?_) (fun a b ha hab => ha.of_step hu hab) h
  rw [hr.reset] at hs
  have hlinked := linked_seed hu hn hlt
  rwa [hs] at hlinked

theorem Linked.complete (hr : r.Linked m starts) (hu : m.mesh.Undirected)
    (he : r.considered.isEmpty) : r.Complete m.mesh starts := by
  have hnone := hr.coherent.isEmpty_iff.mp he
  have hacc : ∀ c, r.isAccepted c ↔ c ∈ m.mesh.connected starts := fun c =>
    hr.isAccepted_iff hu hnone
  refine ⟨hr.coherent.sized, ?_, ?_, ?_, ?_, fun c hc => (hr.started c hc).2, ?_⟩
  · intro c hc
    rw [← hacc c]
    constructor
    · intro ha
      exact ⟨hr.coherent.stateOf_of_accepted ha, hr.isFinite_valueOf ha, hr.nonneg c (Or.inl ha)⟩
    · rintro ⟨hs, -⟩
      exact (hr.coherent.accepted_iff c hc).mpr hs
  · intro c hc hn
    rw [← hacc c] at hn
    have hfar : r.stateOf c = .far := by
      cases hs : r.stateOf c with
      | far => rfl
      | considered => exact absurd hs (hnone c)
      | accepted => exact absurd ((hr.coherent.accepted_iff c hc).mpr hs) hn
    exact ⟨hfar, hr.coherent.far c hfar⟩
  · rw [List.eq_nil_iff_forall_not_mem]
    intro a ha
    obtain ⟨d, rfl, hd, b, hb, hbn⟩ := (hr.front a).mp (Front.mem_toList.mp ha)
    have := (hacc b).mpr (Mesh.mem_connected_of_around ((hacc d).mp hd) hb)
    rw [hbn] at this
    cases this
  · exact Array.isEmpty_iff_size_eq_zero.mp he
  · have hset : m.mesh.connected starts = ↑r.order.toList.toFinset := by
      ext c
      rw [← hacc c, ← hr.coherent.mem_order, Finset.mem_coe, List.mem_toFinset, Array.mem_def]
    rw [hset, Set.ncard_coe_finset, List.toFinset_card_of_nodup hr.coherent.nodup,
      Array.length_toList]
    exact hr.count.symm

/-- With finite line updates and as many acceptances allowed as there are cells, a solve comes to
its end. -/
theorem exists_complete_solve (hu : m.mesh.Undirected) (hn : starts.Nodup)
    (hlt : ∀ c ∈ starts, c < m.mesh.size) (hr : r.Sized m.mesh.size)
    (hl : (left (solve m m.mesh.size starts r)).LinesFinite m) :
    ∃ r', solve m m.mesh.size starts r = .ok r' ∧ r'.Complete m.mesh starts := by
  have hseed := linked_seed hu hn hlt
  unfold solve at hl ⊢
  rw [hr.reset] at hl ⊢
  cases hs : (fresh m.mesh.size : Run α).seed m starts with
  | error e =>
    rw [hs] at hseed hl
    exact absurd hl hseed
  | ok r1 =>
    rw [hs] at hseed hl
    show ∃ r', advance m m.mesh.size r1 = .ok r' ∧ _
    have hl : (left (advance m m.mesh.size r1)).LinesFinite m := hl
    have hstep : ∀ a b : Run α, a.Linked m starts → a.step m = .ok b → b.Linked m starts :=
      fun a b ha hab => ha.of_step hu hab
    obtain ⟨r', hr', ⟨he, h⟩ | ⟨hne, ⟨hbound, h⟩ | ⟨-, e, hs', h⟩⟩⟩ :=
      advance_cases m.mesh.size hstep hseed
    · exact ⟨r', h, hr'.complete hu he⟩
    · obtain ⟨c, hc⟩ : ∃ c, r'.stateOf c = .considered := by
        by_contra hn
        rw [hr'.coherent.isEmpty_iff.mpr fun c hc => hn ⟨c, hc⟩] at hne
        cases hne
      have := hr'.coherent.order_lt hc
      rw [hr'.count] at this
      omega
    · have := hr'.step hu hne
      rw [hs'] at this
      rw [h] at hl
      exact absurd hl this

end Run

namespace Solver

variable [LawfulScalar α] {memory : Memory} {g : CellGrid α} {mesh : Mesh α} {s : Solver α}
  {metric : NdArray α} {starts : Json} {field : MetricField α} {cells : List Nat}

/-- With the default bound and finite line updates a solve raises nothing and reaches exactly the
connected components of its start cells. -/
theorem solve_reaches_components (hg : Mesh.ofGrid memory g = .ok mesh) (hs : Reachable mesh s)
    (hb : s.bound? = none) (hin : s.checkInput metric starts = .ok (field, cells))
    (hl : (s.solve metric starts).1.run.LinesFinite ⟨mesh, field⟩) :
    (s.solve metric starts).2 = .ok (s.solve metric starts).1.run.solution ∧
      (s.solve metric starts).1.run.Complete mesh cells := by
  obtain ⟨rfl, hsized⟩ := hs.sized
  obtain ⟨hasc, hlt⟩ := starts_of_checkInput hin
  have hbound := bound_of_none hb
  rw [run_solve hin, hbound] at hl
  rw [(solve_eq hin).2, run_solve hin, hbound]
  obtain ⟨r, hr, hcomplete⟩ := Run.exists_complete_solve (m := ⟨s.mesh, field⟩)
    (Mesh.undirected_of_ofGrid hg) (hasc.imp fun h => Nat.ne_of_lt h) hlt hsized hl
  rw [hr]
  exact ⟨rfl, hcomplete⟩

theorem solve_reaches_components_sample :
    ((new sampleMesh none).solve sampleMetric sampleStarts).1.run.Complete sampleMesh [0] := by
  refine (solve_reaches_components ofGrid_sampleGrid (.new none) rfl checkInput_sample
    fun j hj _ c hc => ?_).2
  have hsolution : ((new sampleMesh none).solve sampleMetric sampleStarts).1.run.solution =
      #[0, 2, Scalar.inf] := by decide +kernel
  have hj : j < 3 := size_sampleMesh ▸ (Mesh.undirected_of_ofGrid ofGrid_sampleGrid).lt_left hc
  have hlines : ∀ j < 3, ∀ c ∈ sampleMesh.around j, Scalar.isFinite
      (Medium.fromLine ⟨sampleMesh, sampleField⟩ #[0, 2, Scalar.inf] c j) := by decide +kernel
  rw [hsolution]
  exact hlines j hj c hc

theorem linesFinite_pairs : ((new pairsMesh none).solve pairsMetric pairsStarts).1.run.LinesFinite
    ⟨pairsMesh, pairsField⟩ := by
  intro j _ _ c hc
  have hsolution : ((new pairsMesh none).solve pairsMetric pairsStarts).1.run.solution =
      #[0, 3, 0, 2] := by decide +kernel
  have hj : j < 4 := size_pairsMesh ▸ (Mesh.undirected_of_ofGrid ofGrid_pairsGrid).lt_left hc
  have hlines : ∀ j < 4, ∀ c ∈ pairsMesh.around j, Scalar.isFinite
      (Medium.fromLine ⟨pairsMesh, pairsField⟩ #[0, 3, 0, 2] c j) := by decide +kernel
  rw [hsolution]
  exact hlines j hj c hc

end Solver

end Eikonal
