import Eikonal.Solver.Run

/-! The main loop: steps until no cell is considered. Every step accepts a cell for good, so the
cells that are far or considered bound the number of steps. -/

namespace Eikonal.Run

variable {α : Type} [Scalar α]

/-- The number of cells that a run may still accept. -/
def remaining (r : Run α) : Nat := r.state.count .far + r.considered.size

theorem count_far_setIfInBounds_le (a : Array CellState) (c : Nat) (s : CellState)
    (hs : s ≠ .far) : (a.setIfInBounds c s).count .far ≤ a.count .far := by
  unfold Array.setIfInBounds
  split
  · rename_i h
    have : (s == CellState.far) = false := by simpa using hs
    rw [Array.count_set h, this]
    simp
  · exact Nat.le_refl _

theorem count_far_setIfInBounds_add_one {a : Array CellState} {c : Nat} {s : CellState}
    (hs : s ≠ .far) (hc : a.getD c .accepted = .far) :
    (a.setIfInBounds c s).count .far + 1 = a.count .far := by
  have hlt : c < a.size := by
    apply Decidable.byContradiction
    intro h
    simp [Array.getD, h] at hc
  have hget : a[c] = .far := by simpa [Array.getD, hlt] using hc
  have hpos : 0 < a.count .far := Array.count_pos_iff.2 (hget ▸ Array.getElem_mem hlt)
  have : (s == CellState.far) = false := by simpa using hs
  simp [Array.setIfInBounds, hlt, Array.count_set, hget, this]
  omega

theorem remaining_consider {m : Medium α} {r r' : Run α} {c : Nat} (hc : r.stateOf c = .far)
    (h : r.consider m c = .ok r') : r'.remaining = r.remaining := by
  unfold consider at h
  split at h
  · cases h
  · split at h
    · cases h
    · rename_i hp
      cases h
      have h1 := IndexedHeap.size_push hp
      have h2 := count_far_setIfInBounds_add_one (s := .considered) (by decide) hc
      simp only [remaining, h1]
      omega

theorem remaining_considerFar {m : Medium α} {cs : List Nat} {r r' : Run α}
    (h : r.considerFar m cs = .ok r') : r'.remaining = r.remaining := by
  induction cs generalizing r with
  | nil =>
    cases h
    rfl
  | cons c cs ih =>
    simp only [considerFar, List.foldlM_cons] at h
    split at h
    · rename_i hc
      cases h1 : r.consider m c with
      | error e =>
        rw [h1] at h
        cases h
      | ok r1 =>
        rw [h1] at h
        exact (ih h).trans (remaining_consider hc h1)
    · exact ih h

theorem remaining_relax {m : Medium α} {r r' : Run α} {c : Nat} (h : r.relax m c = .ok r') :
    r'.remaining = r.remaining := by
  unfold relax at h
  split at h
  · cases h
  · split at h
    · cases h
    · split at h
      · split at h
        · cases h
        · rename_i hd
          cases h
          simp only [remaining, IndexedHeap.size_decreaseKey hd]
      · cases h
        rfl

theorem remaining_relaxAll {m : Medium α} {cs : List Nat} {r r' : Run α}
    (h : r.relaxAll m cs = .ok r') : r'.remaining = r.remaining := by
  induction cs generalizing r with
  | nil =>
    cases h
    rfl
  | cons c cs ih =>
    simp only [relaxAll, List.foldlM_cons] at h
    cases h1 : r.relax m c with
    | error e =>
      rw [h1] at h
      cases h
    | ok r1 =>
      rw [h1] at h
      exact (ih h).trans (remaining_relax h1)

theorem remaining_spread {m : Medium α} {r r' : Run α} {c : Nat} (h : r.spread m c = .ok r') :
    r'.remaining = r.remaining := by
  unfold spread at h
  cases h1 : r.considerFar m (m.around c) with
  | error e =>
    rw [h1] at h
    cases h
  | ok r1 =>
    rw [h1] at h
    exact (remaining_relaxAll h).trans (remaining_considerFar h1)

omit [Scalar α] in
theorem remaining_accept (m : Medium α) (r : Run α) (e : Entry Nat α) (h : IndexedHeap Nat α) :
    (r.accept m e h).remaining ≤ r.state.count .far + h.size := by
  simp only [remaining, accept, prune, settle]
  exact Nat.add_le_add_right (count_far_setIfInBounds_le _ _ _ (by decide)) _

theorem remaining_step {m : Medium α} {r r' : Run α} (h : r.step m = .ok r') :
    r'.remaining < r.remaining := by
  unfold step at h
  split at h
  · cases h
  · rename_i e h' hp
    have h1 := IndexedHeap.size_pop hp
    have h2 := remaining_accept m r e h'
    have h3 := remaining_spread h
    simp only [remaining] at *
    omega

/-- Takes steps until no cell is considered. More than `bound` acceptances in all are refused. -/
def advance (m : Medium α) (bound : Int) (r : Run α) : Except (Stopped α) (Run α) :=
  if r.considered.isEmpty then .ok r
  else if bound ≤ r.iterations then .error ⟨.bound bound r.considered.size, r⟩
  else
    match _h : r.step m with
    | .error e => .error e
    | .ok r' => advance m bound r'
termination_by r.remaining
decreasing_by exact remaining_step ‹_›

/-- The run after each step that `advance` completes. -/
def passed (m : Medium α) (bound : Int) (r : Run α) : List (Run α) :=
  if r.considered.isEmpty || bound ≤ r.iterations then []
  else
    match _h : r.step m with
    | .error _ => []
    | .ok r' => r' :: passed m bound r'
termination_by r.remaining
decreasing_by exact remaining_step ‹_›

/-- A run from the given start cells to its end. -/
def solve (m : Medium α) (bound : Int) (starts : List Nat) (r : Run α) :
    Except (Stopped α) (Run α) :=
  (r.reset.seed m starts).bind (advance m bound)

/-- The run after each step of the main loop of `solve`. -/
def trace (m : Medium α) (bound : Int) (starts : List Nat) (r : Run α) : List (Run α) :=
  match r.reset.seed m starts with
  | .ok r' => passed m bound r'
  | .error _ => []

end Eikonal.Run
