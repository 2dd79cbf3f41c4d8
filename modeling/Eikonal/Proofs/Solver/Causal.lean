import Eikonal.Proofs.Scalar.Binary64
import Eikonal.Proofs.Solver.Sound

/-! Acceptance is causal: cells are accepted in the order of their values. The accepted cell has the
least considered value, and what it changes lies above it: a new value comes from the accepted cell
alone, and an old one falls only to a candidate in which the accepted cell takes part, because all
other candidates were there before. -/

namespace Eikonal

variable {α : Type} [Scalar α]

namespace Run

/-- The values do not decrease along the order of acceptance. -/
def InOrder (r : Run α) : Prop :=
  r.order.toList.Pairwise fun a b => Scalar.le (r.valueOf a) (r.valueOf b)

/-- A sound run in which no value is negative and no accepted value exceeds one behind it, be that
accepted later or considered. -/
structure Causal (m : Medium α) (r : Run α) : Prop extends Sound m r where
  nonneg : ∀ c, r.isAccepted c ∨ r.stateOf c = .considered → Scalar.le Scalar.zero (r.valueOf c)
  inOrder : r.InOrder
  ahead : ∀ a c, r.isAccepted a → r.stateOf c = .considered →
    Scalar.le (r.valueOf a) (r.valueOf c)

variable {m : Medium α} {n k : Nat} {r r' r1 r2 r3 : Run α} {e : Entry Nat α} {c d : Nat}
  {p : Nat → Prop} {f : Nat → α}

/-- The order of acceptance does not depend on values that are not accepted. -/
theorem Reassigned.inOrder (h : Reassigned n r p f k r') (hr : r.Coherent n) (ho : r.InOrder) :
    r'.InOrder := by
  unfold InOrder
  rw [h.order]
  refine ho.imp_of_mem fun {a b} ha hb hab => ?_
  rw [h.valueOf_accepted ((hr.mem_order a).mp (Array.mem_def.mpr ha)),
    h.valueOf_accepted ((hr.mem_order b).mp (Array.mem_def.mpr hb))]
  exact hab

namespace Accepts

variable (h : Accepts m r e r1) (hr : r.Causal m) (hu : m.mesh.Undirected)
include h hr

theorem nonneg (ha : r1.isAccepted c) : Scalar.le Scalar.zero (r1.valueOf c) := by
  rw [h.valueOf_eq]
  rcases h.isAccepted_iff.mp ha with rfl | ha
  · exact hr.nonneg e.cell (Or.inr h.considered)
  · exact hr.nonneg c (Or.inl ha)

variable [LawfulScalar α]

theorem le_self : Scalar.le e.value (r1.valueOf e.cell) := by
  rw [h.valueOf_eq, ← h.value]
  exact Scalar.le_refl (hr.coherent.isNaN_valueOf h.considered)

theorem ahead (ha : r1.isAccepted c) : Scalar.le (r1.valueOf c) e.value := by
  rw [h.valueOf_eq, ← h.value]
  rcases h.isAccepted_iff.mp ha with rfl | ha
  · exact Scalar.le_refl (hr.coherent.isNaN_valueOf h.considered)
  · exact hr.ahead c e.cell ha h.considered

theorem inOrder : r1.InOrder := by
  unfold InOrder
  rw [h.settled.order, Array.toList_push, List.pairwise_append]
  refine ⟨hr.inOrder.imp fun {a b} hab => ?_, List.pairwise_singleton _ _, fun a ha b hb => ?_⟩
  · rwa [h.valueOf_eq, h.valueOf_eq]
  · rw [List.mem_singleton] at hb
    rw [hb, h.valueOf_eq e.cell, h.value]
    refine h.ahead hr ?_
    rw [h.settled.isAccepted, (hr.coherent.mem_order a).mp (Array.mem_def.mpr ha), Bool.or_true]

theorem le_of_far {v : α} (hc : r1.stateOf c = .far) (hv : r1.arrival m c = some v) :
    Scalar.le e.value v := by
  refine Medium.le_tentative? (fun d hd => ?_) (fun d hd => ?_) hv
  · exact h.nonneg hr (h.settled.coherent.front_accepted d (Medium.mem_upwind.mp hd).2)
  · obtain ⟨hd, hd1⟩ := Medium.mem_upwind.mp hd
    rw [h.eq_of_far hr.toReady hc hd (h.settled.coherent.front_accepted d hd1)]
    exact h.le_self hr

include hu

/-- The front gives no cell less than the accepted value unless the cell has it already. -/
theorem le_of_falls {v : α} (hc : r1.stateOf c = .considered) (hv : r1.arrival m c = some v)
    (hlt : Scalar.lt v (r1.valueOf c)) : Scalar.le e.value v := by
  have hc1 : r1.stateOf c ≠ .accepted := by rw [hc]; decide
  have hc0 : r.stateOf c = .considered := (h.stateOf_ne hc1).2 ▸ hc
  obtain ⟨w, hw⟩ := hr.reached c hc0
  rw [h.valueOf_eq] at hlt
  refine Medium.le_tentative?_of_gained (fun d hd hdf => ?_) h.valueOf_front (fun d hd => ?_)
    (fun d hd hdf => ?_) hw hv (Scalar.lt_of_lt_of_le hlt (hr.steady c w hc0 hw))
  · rw [h.contains_front hr.toReady hu hc1 hd, hdf, Bool.or_true]
  · exact h.nonneg hr (h.settled.coherent.front_accepted d (Medium.mem_upwind.mp hd).2)
  · obtain ⟨hd, hd1⟩ := Medium.mem_upwind.mp hd
    -- the cell that the front has gained is the accepted one
    rw [h.contains_front hr.toReady hu hc1 hd, hdf, Bool.or_false, beq_iff_eq] at hd1
    subst hd1
    exact h.le_self hr

/-- No value lies below the accepted one after the insertions and the relaxations. -/
theorem le_relaxed (hw : Widens m r1 (m.mesh.around e.cell) r2) (hready : r2.Ready m)
    (hc : r2.stateOf c = .considered) : Scalar.le e.value (r2.relaxed m c) := by
  obtain ⟨v, hv⟩ := hready.reached c hc
  unfold relaxed
  rw [hv]
  show Scalar.le e.value (Scalar.lower (r2.valueOf c) v)
  rw [hw.arrival_eq h.settled.coherent] at hv
  rcases hw.considered hc with ⟨hc1, hval⟩ | ⟨hc1, -, hval⟩
  · rw [hval]
    have hc0 : r.stateOf c = .considered := (h.stateOf_ne (by rw [hc1]; decide)).2 ▸ hc1
    by_cases hlt : Scalar.lt v (r1.valueOf c)
    · rw [Scalar.lower_eq_right hlt]
      exact h.le_of_falls hr hu hc1 hv hlt
    · rw [Scalar.lower_eq_left (by simpa using hlt), h.valueOf_eq]
      exact h.le_valueOf hr.coherent hc0
  · rw [hval] at hv
    cases hv
    have hle := h.le_of_far hr hc1 hval
    exact Scalar.le_lower hle hle

end Accepts

variable [LawfulScalar α]

/-- A step keeps a run causal; where it stops, the order of acceptance is right as well. -/
theorem Causal.step (hr : r.Causal m) (hu : m.mesh.Undirected)
    (hne : r.considered.isEmpty = false) :
    match r.step m with
    | .ok r' => r'.Causal m
    | .error e => e.run.InOrder := by
  obtain ⟨e, r1, r2, h, hw, hcase⟩ := hr.toSound.step hu hne
  have horder2 : r2.InOrder := Reassigned.inOrder hw h.settled.coherent (h.inOrder hr)
  split at hcase
  · rw [hcase]
    exact horder2
  · obtain ⟨hready, r3, hr3, hall, hsound⟩ := hcase
    rw [hr3]
    have hvalue : ∀ c, r3.isAccepted c → r1.isAccepted c ∧ r3.valueOf c = r1.valueOf c := by
      intro c hc
      rw [hall.isAccepted_eq] at hc
      have hc1 := hc
      rw [hw.isAccepted_eq] at hc1
      exact ⟨hc1, (hall.valueOf_accepted hc).trans (hw.valueOf_accepted hc1)⟩
    have hbehind : ∀ c, r3.stateOf c = .considered → Scalar.le e.value (r3.valueOf c) := by
      intro c hc
      have hc2 : r2.stateOf c = .considered := hall.stateOf_eq c ▸ hc
      rw [(hall.inside c hc2).2]
      exact h.le_relaxed hr hu hw hready hc2
    refine ⟨hsound, ?_, Reassigned.inOrder hall hready.coherent horder2, ?_⟩
    · rintro c (hc | hc)
      · obtain ⟨hc1, hv⟩ := hvalue c hc
        rw [hv]
        exact h.nonneg hr hc1
      · refine OrderedScalar.le_trans ?_ (hbehind c hc)
        rw [← h.value]
        exact hr.nonneg e.cell (Or.inr h.considered)
    · intro a c ha hc
      obtain ⟨ha1, hv⟩ := hvalue a ha
      rw [hv]
      exact OrderedScalar.le_trans (h.ahead hr ha1) (hbehind c hc)

/-- The start phase leaves a causal run; where it stops, the order of acceptance is right as
well. -/
theorem causal_seed (hu : m.mesh.Undirected) {starts : List Nat} (hn : starts.Nodup)
    (hlt : ∀ c ∈ starts, c < m.mesh.size) :
    match (fresh m.mesh.size).seed m starts with
    | .ok r => r.Causal m
    | .error e => e.run.InOrder := by
  obtain ⟨r1, r2, h, hw, hcase⟩ := seed_cases hu hn hlt
  have hzero : Scalar.le (Scalar.zero : α) Scalar.zero := Scalar.le_refl Scalar.isNaN_zero
  have hvalue1 : ∀ c, r1.isAccepted c → r1.valueOf c = Scalar.zero := fun c hc =>
    h.zero c ((h.isAccepted c).mp hc)
  have horder1 : r1.InOrder := by
    refine List.Pairwise.imp_of_mem (R := fun _ _ => True) (fun {a b} ha hb _ => ?_)
      (List.pairwise_of_forall fun _ _ => trivial)
    rw [hvalue1 a ((h.coherent.mem_order a).mp (Array.mem_def.mpr ha)),
      hvalue1 b ((h.coherent.mem_order b).mp (Array.mem_def.mpr hb))]
    exact hzero
  have horder2 : r2.InOrder := Reassigned.inOrder hw h.coherent horder1
  rcases hcase with ⟨c, -, -, hs⟩ | ⟨-, hs, hsound⟩
  · rw [hs]
    exact horder2
  · rw [hs]
    have hvalue : ∀ c, r2.isAccepted c → r2.valueOf c = Scalar.zero := by
      intro c hc
      rw [hw.isAccepted_eq] at hc
      exact (hw.valueOf_accepted hc).trans (hvalue1 c hc)
    have hbehind : ∀ c, r2.stateOf c = .considered → Scalar.le Scalar.zero (r2.valueOf c) := by
      intro c hc
      rcases hw.considered hc with ⟨hc1, -⟩ | ⟨-, -, hv⟩
      · rw [h.far c (by rw [hc1]; decide)] at hc1
        cases hc1
      · have hfront : ∀ d ∈ m.upwind r1.front c, Scalar.le Scalar.zero
            (r1.solution.getD d Scalar.inf) := by
          intro d hd
          have := hvalue1 d (h.coherent.front_accepted d (Medium.mem_upwind.mp hd).2)
          rw [show r1.solution.getD d Scalar.inf = Scalar.zero from this]
          exact hzero
        exact Medium.le_tentative? hfront hfront hv
    refine ⟨hsound, ?_, horder2, ?_⟩
    · rintro c (hc | hc)
      · rw [hvalue c hc]
        exact hzero
      · exact hbehind c hc
    · intro a c ha hc
      rw [hvalue a ha]
      exact hbehind c hc

theorem Causal.of_step (hr : r.Causal m) (hu : m.mesh.Undirected) (hs : r.step m = .ok r') :
    r'.Causal m := by
  have := hr.step hu (isEmpty_of_step hs)
  rwa [hs] at this

/-- However a run ends, the values did not decrease along the order of acceptance, and after every
step no considered value was below the one just accepted. -/
theorem inOrder_solve (hu : m.mesh.Undirected) {starts : List Nat} (hn : starts.Nodup)
    (hlt : ∀ c ∈ starts, c < m.mesh.size) (hr : r.Sized m.mesh.size) (bound : Int) :
    (left (solve m bound starts r)).InOrder ∧
      ∀ r' ∈ trace m bound starts r, r'.InOrder ∧ ∃ c, r'.order.back? = some c ∧
        ∀ e ∈ r'.considered.entries, Scalar.le (r'.valueOf c) e.value := by
  have hseed := causal_seed hu hn hlt
  unfold solve trace
  rw [hr.reset]
  cases hs : (fresh m.mesh.size : Run α).seed m starts with
  | error e =>
    rw [hs] at hseed
    refine ⟨hseed, fun r' hm => ?_⟩
    cases hm
  | ok r1 =>
    rw [hs] at hseed
    have hstep : ∀ a b : Run α, a.Causal m → a.step m = .ok b → b.Causal m :=
      fun a b ha hab => ha.of_step hu hab
    constructor
    · show (left (advance m bound r1)).InOrder
      obtain ⟨r', hr', h | ⟨hne, ⟨-, h⟩ | ⟨-, e, hs', h⟩⟩⟩ :=
        advance_cases bound hstep hseed
      · rw [h.2]
        exact hr'.inOrder
      · rw [h]
        exact hr'.inOrder
      · rw [h]
        have := hr'.step hu hne
        rwa [hs'] at this
    · intro r' hm
      obtain ⟨r0, h0, h1⟩ := exists_step_of_mem_passed hstep hseed hm
      have hcausal := h0.of_step hu h1
      obtain ⟨c, hc⟩ := h0.toSound.exists_push_of_step hu h1
      refine ⟨hcausal.inOrder, c, by rw [hc, Array.back?_push], fun e he => ?_⟩
      obtain ⟨hes, hev⟩ := hcausal.coherent.mem_entries.mp he
      rw [← hev]
      refine hcausal.ahead c e.cell ((hcausal.coherent.mem_order c).mp ?_) hes
      rw [hc]
      exact Array.mem_push_self

end Run

namespace Solver

variable [LawfulScalar α] {memory : Memory} {g : CellGrid α} {mesh : Mesh α} {s : Solver α}
  {metric : NdArray α} {starts : Json} {field : MetricField α} {cells : List Nat}

/-- However a solve ends, the values did not decrease along the order of acceptance, and after every
step no considered value was below the one just accepted. -/
theorem acceptance_causal (hg : Mesh.ofGrid memory g = .ok mesh) (hs : Reachable mesh s)
    (hin : s.checkInput metric starts = .ok (field, cells)) :
    (s.solve metric starts).1.run.InOrder ∧
      ∀ r ∈ s.trace metric starts, r.InOrder ∧ ∃ c, r.order.back? = some c ∧
        ∀ e ∈ r.considered.entries, Scalar.le (r.valueOf c) e.value := by
  obtain ⟨rfl, hsized⟩ := hs.sized
  obtain ⟨hasc, hlt⟩ := starts_of_checkInput hin
  rw [run_solve hin, trace_eq hin]
  exact Run.inOrder_solve (m := ⟨s.mesh, field⟩) (Mesh.undirected_of_ofGrid hg)
    (hasc.imp fun h => Nat.ne_of_lt h) hlt hsized s.bound

theorem acceptance_causal_sample :
    ((new sampleMesh none).solve sampleMetric sampleStarts).1.run.InOrder :=
  (acceptance_causal ofGrid_sampleGrid (.new none) checkInput_sample).1

end Solver

end Eikonal
