import Eikonal.Proofs.Scalar.Binary64
import Eikonal.Proofs.Solver.Sound

/-! Restricted relaxation loses nothing. A step relaxes only those neighbours of the accepted cell
that were considered before; a sweeping step relaxes all considered cells of the grid instead, the
cells inserted in the same step included. Both find the same values, fall equally often, and differ
in the arrangement of the heap at most. -/

namespace Eikonal

variable {α : Type}

namespace Run

variable [Scalar α]

/-! ### Sweeping steps -/

/-- All considered cells of the grid. -/
def allConsidered (r : Run α) : List Nat :=
  (List.range r.state.size).filter fun c => r.stateOf c = .considered

omit [Scalar α] in
theorem mem_allConsidered (r : Run α) (c : Nat) :
    c ∈ r.allConsidered ↔ r.stateOf c = .considered := by
  unfold allConsidered
  rw [List.mem_filter, List.mem_range, decide_eq_true_eq]
  refine ⟨fun h => h.2, fun h => ⟨?_, h⟩⟩
  by_contra hn
  simp [stateOf, Array.getD, hn] at h

/-- As `spread`, with all the cells relaxed that `sweep` lists. -/
def spreadBy (sweep : Run α → List Nat) (m : Medium α) (r : Run α) (c : Nat) :
    Except (Stopped α) (Run α) :=
  (r.considerFar m (m.around c)).bind fun r' => r'.relaxAll m (sweep r')

/-- As `step`, with all the cells relaxed that `sweep` lists. -/
def stepBy (sweep : Run α → List Nat) (m : Medium α) (r : Run α) : Except (Stopped α) (Run α) :=
  match r.considered.pop with
  | .error e => .error ⟨.heap e, r⟩
  | .ok (e, h) => (r.accept m e h).spreadBy sweep m e.cell

variable {sweep : Run α → List Nat} {m : Medium α} {bound : Int} {n k : Nat}

theorem remaining_stepBy {r r' : Run α} (h : r.stepBy sweep m = .ok r') :
    r'.remaining < r.remaining := by
  unfold stepBy at h
  split at h
  · cases h
  · rename_i e h' hp
    have h1 := IndexedHeap.size_pop hp
    have h2 := remaining_accept m r e h'
    unfold spreadBy at h
    cases h3 : (r.accept m e h').considerFar m (m.around e.cell) with
    | error f =>
      rw [h3] at h
      cases h
    | ok r2 =>
      rw [h3] at h
      have h4 := remaining_considerFar h3
      have h5 := remaining_relaxAll h
      simp only [remaining] at *
      omega

/-- As `advance`, in sweeping steps. -/
def advanceBy (sweep : Run α → List Nat) (m : Medium α) (bound : Int) (r : Run α) :
    Except (Stopped α) (Run α) :=
  if r.considered.isEmpty then .ok r
  else if bound ≤ r.iterations then .error ⟨.bound bound r.considered.size, r⟩
  else
    match _h : r.stepBy sweep m with
    | .error e => .error e
    | .ok r' => advanceBy sweep m bound r'
termination_by r.remaining
decreasing_by exact remaining_stepBy ‹_›

theorem advanceBy_of_ok {r r' : Run α} (he : r.considered.isEmpty = false)
    (hb : r.iterations < bound) (hs : r.stepBy sweep m = .ok r') :
    advanceBy sweep m bound r = advanceBy sweep m bound r' := by
  rw [advanceBy, if_neg (by simp [he]), if_neg (by omega)]
  split
  · rename_i e hs'
    rw [hs] at hs'
    cases hs'
  · rename_i r1 hs'
    rw [hs] at hs'
    cases hs'
    rfl

theorem advanceBy_of_error {r : Run α} {e : Stopped α} (he : r.considered.isEmpty = false)
    (hb : r.iterations < bound) (hs : r.stepBy sweep m = .error e) :
    advanceBy sweep m bound r = .error e := by
  rw [advanceBy, if_neg (by simp [he]), if_neg (by omega)]
  split
  · rename_i e' hs'
    rw [hs] at hs'
    cases hs'
    rfl
  · rename_i r1 hs'
    rw [hs] at hs'
    cases hs'

/-- As `solve`, in sweeping steps. -/
def solveBy (sweep : Run α → List Nat) (m : Medium α) (bound : Int) (starts : List Nat)
    (r : Run α) : Except (Stopped α) (Run α) :=
  (r.reset.seed m starts).bind (advanceBy sweep m bound)

/-! ### Runs that agree -/

/-- The run `b` is `a` with another heap. -/
def Same (a b : Run α) : Prop := ∃ h, b = { a with considered := h }

/-- Both go on, with related runs, or both stop for the same cause, with runs that agree. -/
def Alike (R : Run α → Run α → Prop) :
    Except (Stopped α) (Run α) → Except (Stopped α) (Run α) → Prop
  | .ok a, .ok b => R a b
  | .error e, .error f => e.cause = f.cause ∧ Same e.run f.run
  | _, _ => False

variable {a b a' b' : Run α} {p : Nat → Prop} {f : Nat → α} {e e' : Entry Nat α}

omit [Scalar α] in
theorem same_refl (a : Run α) : Same a a := ⟨a.considered, rfl⟩

omit [Scalar α] in
theorem Same.iterations_eq (h : Same a b) : b.iterations = a.iterations := by
  obtain ⟨h, rfl⟩ := h
  rfl

omit [Scalar α] in
theorem alike_refl (x : Except (Stopped α) (Run α)) : Alike Same x x := by
  cases x with
  | ok a => exact same_refl a
  | error e => exact ⟨rfl, same_refl e.run⟩

theorem array_ext_getD {β : Type} {a b : Array β} (x : β) (hs : a.size = b.size)
    (h : ∀ i, a.getD i x = b.getD i x) : a = b := by
  refine Array.ext hs fun i h1 h2 => ?_
  simpa [Array.getD, h1, h2] using h i

/-- Equal changes to runs that agree lead to runs that agree. -/
theorem Reassigned.same (ha : Reassigned n a p f k a') (hb : Reassigned n b p f k b')
    (hab : Same a b) : Same a' b' := by
  obtain ⟨h, rfl⟩ := hab
  have hstate : a'.state = b'.state := by
    refine array_ext_getD .accepted ?_ fun d => ?_
    · rw [ha.coherent.sized.state, hb.coherent.sized.state]
    · show a'.stateOf d = b'.stateOf d
      by_cases hd : p d
      · rw [(ha.inside d hd).1, (hb.inside d hd).1]
      · rw [(ha.outside d hd).1, (hb.outside d hd).1]
        rfl
  have hsolution : a'.solution = b'.solution := by
    refine array_ext_getD Scalar.inf ?_ fun d => ?_
    · rw [ha.coherent.sized.solution, hb.coherent.sized.solution]
    · show a'.valueOf d = b'.valueOf d
      by_cases hd : p d
      · rw [(ha.inside d hd).2, (hb.inside d hd).2]
      · rw [(ha.outside d hd).2, (hb.outside d hd).2]
        rfl
  have hfront : a'.front = b'.front := ha.front.trans hb.front.symm
  have haccepted : a'.accepted = b'.accepted := ha.accepted.trans hb.accepted.symm
  have horder : a'.order = b'.order := ha.order.trans hb.order.symm
  have hiterations : a'.iterations = b'.iterations := ha.iterations.trans hb.iterations.symm
  have hrelaxations : a'.relaxations = b'.relaxations := ha.relaxations.trans hb.relaxations.symm
  refine ⟨b'.considered, ?_⟩
  cases a'
  cases b'
  dsimp only at *
  subst hstate hsolution hfront haccepted horder hiterations hrelaxations
  rfl

omit [Scalar α] in
theorem Same.stateOf_eq (h : Same a b) (c : Nat) : b.stateOf c = a.stateOf c := by
  obtain ⟨h, rfl⟩ := h
  rfl

variable [OrderedScalar α]

/-- Runs that agree accept the same entry. -/
theorem Accepts.same {a1 b1 : Run α} (ha : Accepts m a e a1) (hb : Accepts m b e' b1)
    (hac : a.Coherent m.mesh.size) (hab : Same a b) : e' = e ∧ Same a1 b1 := by
  obtain ⟨h, rfl⟩ := hab
  have he : e' = e := ha.entry_eq hb hac fun c _ => ⟨rfl, rfl⟩
  obtain ⟨ha', -, rfl⟩ := ha.taken
  obtain ⟨hb', -, rfl⟩ := hb.taken
  subst he
  exact ⟨rfl, hb', rfl⟩

/-- A step and a sweeping step from sound runs that agree have outcomes that agree, and lead to
sound runs. -/
theorem Sound.step_alike (ha : a.Sound m) (hb : b.Sound m) (hab : Same a b)
    (hu : m.mesh.Undirected) (hsweep : ∀ r c, c ∈ sweep r ↔ r.stateOf c = .considered)
    (hne : a.considered.isEmpty = false) :
    Alike (fun a' b' => a'.Sound m ∧ b'.Sound m ∧ Same a' b') (a.step m) (b.stepBy sweep m) := by
  have hne' : b.considered.isEmpty = false := by
    rw [ha.coherent.isEmpty_considered_eq hb.coherent hab.stateOf_eq, hne]
  obtain ⟨e, a1, a2, h1, hw, hcase⟩ := ha.step hu hne
  obtain ⟨e', b1, h1'⟩ := hb.exists_accepts hu hne'
  obtain ⟨rfl, h, rfl⟩ := h1.same h1' ha.coherent hab
  obtain ⟨b2, hw', hcase'⟩ := h1'.spread hb hu
  obtain ⟨h', hpop, hb1⟩ := h1'.taken
  have hstep : b.stepBy sweep m =
      ({ a1 with considered := h } : Run α).spreadBy sweep m e'.cell := by
    unfold stepBy
    rw [hpop, hb1]
  have h2 : Same a2 b2 := Reassigned.same hw hw' ⟨h, rfl⟩
  have hstuck : ({ a1 with considered := h } : Run α).isStuck m = a1.isStuck m := rfl
  rw [hstuck] at hcase'
  rw [hstep]
  unfold spreadBy
  cases hfind : (m.mesh.around e'.cell).find? (a1.isStuck m) with
  | some c =>
    rw [hfind] at hcase hcase'
    rw [show Run.considerFar m _ (m.around e'.cell) = _ from hcase', hcase]
    exact ⟨rfl, h2⟩
  | none =>
    rw [hfind] at hcase hcase'
    obtain ⟨-, a3, ha3, hall, hsound⟩ := hcase
    obtain ⟨hb2, -, hrelax⟩ := hcase'
    obtain ⟨b3, hb3, hall', hsound'⟩ := hrelax (sweep b2) (fun c hc => (hsweep b2 c).mp hc)
      fun c hc hs => by
        rw [hsweep, (hw'.outside c fun hin => by rw [hs] at hin; cases hin.2).1, hs]
    rw [show Run.considerFar m _ (m.around e'.cell) = _ from hb2, ha3]
    show Alike _ _ (b2.relaxAll m (sweep b2))
    rw [hb3]
    obtain ⟨k, rfl⟩ := h2
    exact ⟨hsound, hsound', Reassigned.same hall hall' ⟨k, rfl⟩⟩

theorem Sound.advance_alike (ha : a.Sound m) (hb : b.Sound m) (hab : Same a b)
    (hu : m.mesh.Undirected) (hsweep : ∀ r c, c ∈ sweep r ↔ r.stateOf c = .considered) :
    Alike Same (advance m bound a) (advanceBy sweep m bound b) := by
  induction a using advance.induct m bound generalizing b with
  | case1 a he =>
    have he' := ha.coherent.isEmpty_considered_eq hb.coherent hab.stateOf_eq
    rw [advance, advanceBy, if_pos he, if_pos (he'.trans he)]
    exact hab
  | case2 a he hbound =>
    have he' := ha.coherent.isEmpty_considered_eq hb.coherent hab.stateOf_eq
    have hit : b.iterations = a.iterations := hab.iterations_eq
    rw [advance, if_neg he, if_pos hbound, advanceBy, if_neg (by rwa [he']),
      if_pos (by rwa [hit]), ha.coherent.size_considered_eq hb.coherent hab.stateOf_eq]
    exact ⟨rfl, hab⟩
  | case3 a he hbound e hs =>
    have he : a.considered.isEmpty = false := by simpa using he
    have he' := (ha.coherent.isEmpty_considered_eq hb.coherent hab.stateOf_eq).trans he
    have hit : b.iterations = a.iterations := hab.iterations_eq
    have hstep := ha.step_alike hb hab hu hsweep he
    rw [hs] at hstep
    rw [advance_of_error he (by omega) hs]
    cases hs' : b.stepBy sweep m with
    | ok b1 =>
      rw [hs'] at hstep
      cases hstep
    | error f =>
      rw [hs'] at hstep
      rw [advanceBy_of_error he' (by omega) hs']
      exact hstep
  | case4 a he hbound a1 hs ih =>
    have he : a.considered.isEmpty = false := by simpa using he
    have he' := (ha.coherent.isEmpty_considered_eq hb.coherent hab.stateOf_eq).trans he
    have hit : b.iterations = a.iterations := hab.iterations_eq
    have hstep := ha.step_alike hb hab hu hsweep he
    rw [hs] at hstep
    rw [advance_of_ok he (by omega) hs]
    cases hs' : b.stepBy sweep m with
    | ok b1 =>
      rw [hs'] at hstep
      obtain ⟨ha1, hb1, hab1⟩ := hstep
      rw [advanceBy_of_ok he' (by omega) hs']
      exact ih ha1 hb1 hab1
    | error f =>
      rw [hs'] at hstep
      cases hstep

/-- A run and a sweeping run from the same start cells have the same outcome. -/
theorem solve_alike (bound : Int) (hu : m.mesh.Undirected) {starts : List Nat} (hn : starts.Nodup)
    (hlt : ∀ c ∈ starts, c < m.mesh.size) {r : Run α} (hr : r.Sized m.mesh.size)
    (hsweep : ∀ r c, c ∈ sweep r ↔ r.stateOf c = .considered) :
    Alike Same (r.solve m bound starts) (r.solveBy sweep m bound starts) := by
  unfold solve solveBy
  rw [hr.reset]
  obtain ⟨r1, r2, -, -, ⟨c, -, -, hs⟩ | ⟨-, hs, hsound⟩⟩ := seed_cases hu hn hlt
  · rw [hs]
    exact alike_refl _
  · rw [hs]
    exact hsound.advance_alike hsound (same_refl r2) hu hsweep

end Run

namespace Solver

variable [Scalar α] [OrderedScalar α] {memory : Memory} {g : CellGrid α} {mesh : Mesh α}
  {s : Solver α} {metric : NdArray α} {starts : Json} {field : MetricField α} {cells : List Nat}

/-- After every step each considered cell of the grid keeps its value when it is evaluated again,
and a run that sweeps over all considered cells in every step, in any order, has the same outcome
and leaves the same run but for the arrangement of the heap. -/
theorem restricted_relaxation (hg : Mesh.ofGrid memory g = .ok mesh) (hs : Reachable mesh s)
    (hin : s.checkInput metric starts = .ok (field, cells)) :
    (∀ r ∈ s.trace metric starts, ∀ c, r.stateOf c = .considered →
      ∃ v k, Medium.tentative? ⟨mesh, field⟩ r.front r.solution c = some v ∧
        r.considered.key c = .ok k ∧ Scalar.le k v) ∧
    ∀ sweep : Run α → List Nat, (∀ r c, c ∈ sweep r ↔ r.stateOf c = .considered) →
      Run.Same (s.solve metric starts).1.run
          (Run.left (s.run.solveBy sweep ⟨mesh, field⟩ s.bound cells)) ∧
        (s.solve metric starts).2 = outcome (s.run.solveBy sweep ⟨mesh, field⟩ s.bound cells) := by
  obtain ⟨rfl, hsized⟩ := hs.sized
  have hu := Mesh.undirected_of_ofGrid hg
  obtain ⟨hasc, hlt⟩ := starts_of_checkInput hin
  have hn : cells.Nodup := hasc.imp fun h => Nat.ne_of_lt h
  refine ⟨fun r hr c hc => ?_, fun sweep hsweep => ?_⟩
  · rw [trace_eq hin] at hr
    have hsound := Run.sound_of_mem_trace (m := ⟨s.mesh, field⟩) hu hn hlt hsized hr
    obtain ⟨v, hv⟩ := hsound.reached c hc
    refine ⟨v, r.valueOf c, hv, ?_, hsound.steady c v hc hv⟩
    unfold IndexedHeap.key
    rw [hsound.coherent.key_considered hc]
  · have halike := Run.solve_alike (m := ⟨s.mesh, field⟩) s.bound hu hn hlt hsized hsweep
    rw [run_solve hin, (solve_eq hin).2]
    cases h1 : s.run.solve ⟨s.mesh, field⟩ s.bound cells with
    | ok a =>
      cases h2 : s.run.solveBy sweep ⟨s.mesh, field⟩ s.bound cells with
      | ok b =>
        rw [h1, h2] at halike
        obtain ⟨h, rfl⟩ := halike
        exact ⟨⟨h, rfl⟩, rfl⟩
      | error f =>
        rw [h1, h2] at halike
        cases halike
    | error e =>
      cases h2 : s.run.solveBy sweep ⟨s.mesh, field⟩ s.bound cells with
      | ok b =>
        rw [h1, h2] at halike
        cases halike
      | error f =>
        rw [h1, h2] at halike
        obtain ⟨hcause, hsame⟩ := halike
        exact ⟨hsame, by rw [outcome, outcome, hcause]⟩

theorem restricted_relaxation_sample :
    Run.Same ((new sampleMesh none).solve sampleMetric sampleStarts).1.run
      (Run.left ((new sampleMesh none).run.solveBy Run.allConsidered ⟨sampleMesh, sampleField⟩
        (new sampleMesh none).bound [0])) :=
  ((restricted_relaxation ofGrid_sampleGrid (.new none) checkInput_sample).2 Run.allConsidered
    Run.mem_allConsidered).1

end Solver

end Eikonal
