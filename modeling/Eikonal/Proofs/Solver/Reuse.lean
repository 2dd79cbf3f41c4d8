import Eikonal.Proofs.Solver.History

/-! Solvers used again. A solve whose input is accepted makes all cells far, so nothing of what was
called on the solver before shows in its outcome or in what it leaves: not a run that stopped half
way, nor a cell put on the front from outside. Input that is refused leaves everything as it was. -/

namespace Eikonal

/-- What may be called on a solver between two solves. -/
inductive SolverCall (α : Type) where
  | solve (metric : NdArray α) (starts : Json)
  | putOnFront (c : Int)

namespace Solver

variable {α : Type} [Scalar α] {s t : Solver α} {metric : NdArray α} {starts : Json}

def call (s : Solver α) : SolverCall α → Solver α
  | .solve metric starts => (s.solve metric starts).1
  | .putOnFront c => s.putOnFront c

/-- The solver after calls, whatever came of each of them. -/
def after (s : Solver α) (calls : List (SolverCall α)) : Solver α := calls.foldl call s

/-- Two solvers for the same cells with the same bound on their runs. -/
structure Twins (s t : Solver α) : Prop where
  mesh : s.mesh = t.mesh
  bound : s.bound? = t.bound?
  left : s.run.Sized s.mesh.size
  right : t.run.Sized t.mesh.size

/-! ### Calls keep a solver for what it is made for -/

theorem twins_new (mesh : Mesh α) (bound? : Option Int) :
    Twins (new mesh bound?) (new mesh bound?) :=
  ⟨rfl, rfl, Run.sized_fresh _, Run.sized_fresh _⟩

theorem Twins.solve (h : Twins s t) (metric : NdArray α) (starts : Json) :
    Twins (s.solve metric starts).1 t := by
  cases hin : s.checkInput metric starts with
  | error e => rwa [solve_of_error hin]
  | ok input =>
    obtain ⟨field, cells⟩ := input
    rw [(solve_eq hin).1]
    exact ⟨h.mesh, h.bound, h.left.solve _ _, h.right⟩

omit [Scalar α] in
theorem Twins.putOnFront (h : Twins s t) (c : Int) : Twins (s.putOnFront c) t :=
  ⟨h.mesh, h.bound, ⟨h.left.solution, h.left.state, h.left.accepted⟩, h.right⟩

theorem Twins.after (h : Twins s t) (calls : List (SolverCall α)) : Twins (s.after calls) t := by
  induction calls generalizing s with
  | nil => exact h
  | cons k calls ih =>
    cases k with
    | solve metric starts => exact ih (h.solve metric starts)
    | putOnFront c => exact ih (h.putOnFront c)

/-! ### Twins solve alike -/

theorem Twins.checkInput (h : Twins s t) (metric : NdArray α) (starts : Json) :
    s.checkInput metric starts = t.checkInput metric starts := by
  unfold Solver.checkInput size
  rw [h.mesh]

theorem Twins.reset (h : Twins s t) : s.run.reset = t.run.reset := by
  rw [h.left.reset, h.right.reset, h.mesh]

theorem Twins.begin (h : Twins s t) (field : MetricField α) : s.begin field = t.begin field := by
  unfold Solver.begin
  rw [h.reset, h.mesh, h.bound]

omit [Scalar α] in
theorem Twins.bound_eq (h : Twins s t) : s.bound = t.bound := by
  unfold Solver.bound size
  rw [h.mesh, h.bound]

/-- A run begins with a reset, so it is the same from two runs of one size. -/
theorem Twins.run_solve (h : Twins s t) (field : MetricField α) (cells : List Nat) :
    s.run.solve ⟨s.mesh, field⟩ s.bound cells = t.run.solve ⟨t.mesh, field⟩ t.bound cells := by
  unfold Run.solve
  rw [h.reset, h.mesh, h.bound_eq]

theorem Twins.solve_eq (h : Twins s t) {input : MetricField α × List Nat}
    (hin : s.checkInput metric starts = .ok input) :
    s.solve metric starts = t.solve metric starts := by
  obtain ⟨field, cells⟩ := input
  obtain ⟨hs, hs'⟩ := Solver.solve_eq hin
  rw [h.checkInput] at hin
  obtain ⟨ht, ht'⟩ := Solver.solve_eq hin
  refine Prod.ext ?_ ?_
  · rw [hs, ht, h.begin, h.run_solve]
  · rw [hs', ht', h.run_solve]

theorem Twins.trace_eq (h : Twins s t) : s.trace metric starts = t.trace metric starts := by
  unfold Solver.trace Run.trace
  rw [h.checkInput, h.reset, h.mesh, h.bound_eq]

/-- Input is refused for its metric or for its start cells. -/
theorem checkInput_ne_stopped (cause : StopCause α) :
    s.checkInput metric starts ≠ .error (.stopped cause) := by
  unfold Solver.checkInput
  intro h
  split at h
  · cases h
  · split at h <;> cases h

/-- Whatever was called on a solver, the next solve has the outcome that it has on a new solver and
takes the same steps, and unless its input is refused, it leaves the solver as it leaves a new one.
If the input is refused, the solver stays as it was. -/
theorem solve_after_eq_solve_new (mesh : Mesh α) (bound? : Option Int)
    (calls : List (SolverCall α)) (metric : NdArray α) (starts : Json) :
    let fresh := new mesh bound?
    let used := fresh.after calls
    (used.solve metric starts).2 = (fresh.solve metric starts).2 ∧
      used.trace metric starts = fresh.trace metric starts ∧
      match (used.solve metric starts).2 with
      | .error (.metric _) => (used.solve metric starts).1 = used
      | .error (.start _) => (used.solve metric starts).1 = used
      | .error (.stopped _) => (used.solve metric starts).1 = (fresh.solve metric starts).1
      | .ok _ => (used.solve metric starts).1 = (fresh.solve metric starts).1 := by
  intro fresh used
  have h : Twins used fresh := (twins_new mesh bound?).after calls
  cases hin : used.checkInput metric starts with
  | error e =>
    have hin' := hin
    rw [h.checkInput] at hin'
    refine ⟨by rw [solve_of_error hin, solve_of_error hin'], h.trace_eq, ?_⟩
    rw [solve_of_error hin]
    cases e with
    | metric why => rfl
    | start why => rfl
    | stopped cause => exact absurd hin (checkInput_ne_stopped cause)
  | ok input =>
    have hsame := h.solve_eq hin
    refine ⟨by rw [hsame], h.trace_eq, ?_⟩
    obtain ⟨field, cells⟩ := input
    rw [hsame]
    rw [h.checkInput] at hin
    rw [(Solver.solve_eq hin).2]
    cases fresh.run.solve ⟨fresh.mesh, field⟩ fresh.bound cells with
    | ok r => rfl
    | error e => rfl

end Solver

end Eikonal
