import Eikonal.Proofs.Front
import Eikonal.Solver.Loop
import Mathlib.Data.List.Chain

/-! The loop of a run. What the parts of a step keep holds of every run that the loop passes and of
the run that it leaves, be it at its end or where it stopped. -/

namespace Eikonal.Run

variable {α : Type}

/-- The run that is left at the end or where it stopped. -/
def left : Except (Stopped α) (Run α) → Run α
  | .ok r => r
  | .error e => e.run

variable {P : Run α → Prop} {m : Medium α} {r r' : Run α} {bound : Int}

theorem left_bind {x : Except (Stopped α) (Run α)} {f : Run α → Except (Stopped α) (Run α)}
    (hx : P (left x)) (hf : ∀ r, P r → P (left (f r))) : P (left (x.bind f)) := by
  cases x with
  | error e => exact hx
  | ok r => exact hf r hx

theorem left_foldlM {κ : Type} {f : Run α → κ → Except (Stopped α) (Run α)} {cs : List κ}
    (hf : ∀ r c, P r → P (left (f r c))) (hr : P r) : P (left (cs.foldlM f r)) := by
  induction cs generalizing r with
  | nil => exact hr
  | cons c cs ih =>
    rw [List.foldlM_cons]
    exact left_bind (hf r c hr) fun r' h => ih h

variable [Scalar α]

theorem advance_of_ok (he : r.considered.isEmpty = false) (hb : r.iterations < bound)
    (hs : r.step m = .ok r') : advance m bound r = advance m bound r' := by
  rw [advance, if_neg (by simp [he]), if_neg (by omega)]
  split
  · rename_i e hs'
    rw [hs] at hs'
    cases hs'
  · rename_i r1 hs'
    rw [hs] at hs'
    cases hs'
    rfl

theorem advance_of_error {e : Stopped α} (he : r.considered.isEmpty = false)
    (hb : r.iterations < bound) (hs : r.step m = .error e) : advance m bound r = .error e := by
  rw [advance, if_neg (by simp [he]), if_neg (by omega)]
  split
  · rename_i e' hs'
    rw [hs] at hs'
    cases hs'
    rfl
  · rename_i r1 hs'
    rw [hs] at hs'
    cases hs'

theorem passed_of_ok (he : r.considered.isEmpty = false) (hb : r.iterations < bound)
    (hs : r.step m = .ok r') : passed m bound r = r' :: passed m bound r' := by
  rw [passed, if_neg (by simp [he, hb])]
  split
  · rename_i e hs'
    rw [hs] at hs'
    cases hs'
  · rename_i r1 hs'
    rw [hs] at hs'
    cases hs'
    rfl

/-- How the loop ends: no cell is considered any more, more acceptances are needed than are
allowed, or a step stops. -/
theorem advance_cases (bound : Int) (hstep : ∀ r r', P r → r.step m = .ok r' → P r') (hr : P r) :
    ∃ r', P r' ∧
      (r'.considered.isEmpty ∧ advance m bound r = .ok r' ∨
        r'.considered.isEmpty = false ∧
          (bound ≤ r'.iterations ∧
              advance m bound r = .error ⟨.bound bound r'.considered.size, r'⟩ ∨
            r'.iterations < bound ∧ ∃ e, r'.step m = .error e ∧ advance m bound r = .error e)) := by
  induction r using advance.induct m bound with
  | case1 r he =>
    rw [advance, if_pos he]
    exact ⟨r, hr, Or.inl ⟨he, rfl⟩⟩
  | case2 r he hb =>
    rw [advance, if_neg he, if_pos hb]
    exact ⟨r, hr, Or.inr ⟨by simpa using he, Or.inl ⟨hb, rfl⟩⟩⟩
  | case3 r he hb e hs =>
    have he : r.considered.isEmpty = false := by simpa using he
    exact ⟨r, hr, Or.inr ⟨he, Or.inr ⟨by omega, e, hs, advance_of_error he (by omega) hs⟩⟩⟩
  | case4 r he hb r1 hs ih =>
    rw [advance_of_ok (by simpa using he) (by omega) hs]
    exact ih (hstep r r1 hr hs)

/-- Every run that the loop passes comes from a step of a run as before it. -/
theorem exists_step_of_mem_passed (hstep : ∀ r r', P r → r.step m = .ok r' → P r') (hr : P r)
    (hm : r' ∈ passed m bound r) : ∃ r0, P r0 ∧ r0.step m = .ok r' := by
  induction r using passed.induct m bound with
  | case1 r he =>
    rw [passed, if_pos he] at hm
    cases hm
  | case2 r he e hs =>
    rw [passed, if_neg he] at hm
    split at hm
    · cases hm
    · rename_i r1 hs'
      rw [hs] at hs'
      cases hs'
  | case3 r he r1 hs ih =>
    rw [passed, if_neg he] at hm
    split at hm
    · cases hm
    · rename_i r2 hs'
      rw [hs] at hs'
      cases hs'
      rcases List.mem_cons.mp hm with rfl | hm
      · exact ⟨r, hr, hs⟩
      · exact ih (hstep r r1 hr hs) hm

/-- Each run that the loop passes comes from the one before it by a step. -/
theorem isChain_passed (hstep : ∀ r r', P r → r.step m = .ok r' → P r') (hr : P r) :
    (r :: passed m bound r).IsChain fun a b => P a ∧ a.step m = .ok b := by
  induction r using passed.induct m bound with
  | case1 r he =>
    rw [passed, if_pos he]
    exact List.isChain_singleton r
  | case2 r he e hs =>
    rw [passed, if_neg he]
    split
    · exact List.isChain_singleton r
    · rename_i r1 hs'
      rw [hs] at hs'
      cases hs'
  | case3 r he r1 hs ih =>
    rw [passed, if_neg he]
    split
    · rename_i e hs'
      rw [hs] at hs'
      cases hs'
    · rename_i r2 hs'
      rw [hs] at hs'
      cases hs'
      exact List.isChain_cons_cons.mpr ⟨⟨hr, hs⟩, ih (hstep r r1 hr hs)⟩

/-- What the start phase and every step keep holds where a solve comes to its end. -/
theorem of_solve_eq_ok {starts : List Nat} (hseed : ∀ r1, r.reset.seed m starts = .ok r1 → P r1)
    (hstep : ∀ r r', P r → r.step m = .ok r' → P r') (h : solve m bound starts r = .ok r') :
    P r' ∧ r'.considered.isEmpty := by
  unfold solve at h
  cases hs : r.reset.seed m starts with
  | error e =>
    rw [hs] at h
    cases h
  | ok r1 =>
    rw [hs] at h
    have h : advance m bound r1 = .ok r' := h
    obtain ⟨r2, hr2, ⟨he, hend⟩ | ⟨-, ⟨-, hend⟩ | ⟨-, e, -, hend⟩⟩⟩ :=
      advance_cases bound hstep (hseed r1 hs)
    · rw [hend] at h
      cases h
      exact ⟨hr2, he⟩
    · rw [hend] at h
      cases h
    · rw [hend] at h
      cases h

theorem left_advance (hstep : ∀ r, P r → P (left (r.step m))) (hr : P r) :
    P (left (advance m bound r)) := by
  have hok : ∀ r r', P r → r.step m = .ok r' → P r' := by
    intro r r' h hs
    have := hstep r h
    rwa [hs] at this
  obtain ⟨r', hr', h | ⟨-, ⟨-, h⟩ | ⟨-, e, hs, h⟩⟩⟩ := advance_cases bound hok hr
  · rw [h.2]
    exact hr'
  · rw [h]
    exact hr'
  · rw [h]
    have := hstep r' hr'
    rwa [hs] at this

/-- What the parts of a run keep holds of the run that is left and of every run in the trace. -/
theorem left_solve (bound : Int) {starts : List Nat} (hseed : P (left (r.reset.seed m starts)))
    (hstep : ∀ r, P r → P (left (r.step m))) :
    P (left (solve m bound starts r)) ∧ ∀ r' ∈ trace m bound starts r, P r' := by
  refine ⟨left_bind hseed fun r1 h1 => left_advance hstep h1, fun r' hm => ?_⟩
  unfold trace at hm
  split at hm
  · rename_i r1 h1
    rw [h1] at hseed
    obtain ⟨r0, h0, hs⟩ := exists_step_of_mem_passed (P := P) (fun a b ha hs => by
      have := hstep a ha
      rwa [hs] at this) hseed hm
    have := hstep r0 h0
    rwa [hs] at this
  · cases hm

end Eikonal.Run
