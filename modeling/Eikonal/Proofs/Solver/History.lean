import Eikonal.Proofs.Metric.Field
import Eikonal.Proofs.Solver.Loop
import Eikonal.Proofs.Solver.Mesh
import Eikonal.Proofs.Traversal
import Eikonal.Scalar.Float
import Eikonal.Solver.Basic

/-! Solvers with a history. Whatever was called on a solver before, its run keeps the number of
cells, so every solve whose input is accepted begins with a fresh run. -/

namespace Eikonal

variable {α : Type} [Scalar α]

namespace Run

/-- The arrays of a run hold one item for each of `n` cells. -/
structure Sized (n : Nat) (r : Run α) : Prop where
  solution : r.solution.size = n
  state : r.state.size = n
  accepted : r.accepted.size = n

variable {n : Nat} {r : Run α} {m : Medium α}

theorem sized_fresh (n : Nat) : (fresh n : Run α).Sized n := by
  constructor <;> simp [fresh]

theorem Sized.reset (h : r.Sized n) : r.reset = fresh n := by
  have hmap : ∀ {β : Type} (a : Array β) (γ : Type) (x : γ), a.map (fun _ => x) =
      Array.replicate a.size x := by
    intro β a γ x
    apply Array.ext
    · simp
    · intro i h1 h2
      simp
  unfold Run.reset fresh
  rw [hmap, hmap, hmap, h.solution, h.state, h.accepted]

omit [Scalar α] in
theorem Sized.settle (h : r.Sized n) (c : Nat) (v : α) : (r.settle c v).Sized n := by
  constructor <;> simp [Run.settle, h.solution, h.state, h.accepted]

theorem Sized.consider (h : r.Sized n) (c : Nat) : (left (r.consider m c)).Sized n := by
  unfold Run.consider
  split
  · exact h
  · split
    · exact h
    · constructor <;> simp [left, h.solution, h.state, h.accepted]

theorem Sized.considerFar (h : r.Sized n) (cs : List Nat) :
    (left (r.considerFar m cs)).Sized n := by
  refine left_foldlM (fun r c hr => ?_) h
  split
  · exact hr.consider c
  · exact hr

theorem Sized.relax (h : r.Sized n) (c : Nat) : (left (r.relax m c)).Sized n := by
  unfold Run.relax
  split
  · exact h
  · split
    · exact h
    · split
      · split
        · exact h
        · constructor <;> simp [left, h.solution, h.state, h.accepted]
      · exact h

theorem Sized.step (h : r.Sized n) : (left (r.step m)).Sized n := by
  unfold Run.step
  split
  · exact h
  · rename_i e h' _
    have haccept : (r.accept m e h').Sized n := by
      constructor <;> simp [accept, prune, Run.settle, h.solution, h.state, h.accepted]
    exact left_bind (haccept.considerFar _) fun r hr => left_foldlM (fun r c hr => hr.relax c) hr

theorem Sized.seed (h : r.Sized n) (starts : List Nat) : (left (r.seed m starts)).Sized n := by
  have hsettle : ∀ (cs : List Nat) (r : Run α), r.Sized n →
      (cs.foldl (fun r c => r.settle c Scalar.zero) r).Sized n := by
    intro cs
    induction cs with
    | nil => exact fun r hr => hr
    | cons c cs ih => exact fun r hr => ih _ (hr.settle c _)
  have hseeded := hsettle starts r h
  have hpruned : ∀ cs, ((starts.foldl (fun r c => r.settle c Scalar.zero) r).prune m cs).Sized n :=
    fun cs => ⟨hseeded.solution, hseeded.state, hseeded.accepted⟩
  exact (hpruned _).considerFar _

theorem Sized.solve (h : r.Sized n) (bound : Int) (starts : List Nat) :
    (left (solve m bound starts r)).Sized n := by
  refine (left_solve bound ?_ fun r hr => hr.step).1
  rw [h.reset]
  exact (sized_fresh n).seed starts

/-- Without start cells a run ends where it begins. -/
theorem solve_nil (m : Medium α) (bound : Int) (r : Run α) :
    solve m bound [] r = .ok r.reset := by
  have hempty : r.reset.considered.isEmpty := rfl
  have hseed : r.reset.seed m [] = .ok r.reset := rfl
  unfold solve
  rw [hseed]
  show advance m bound r.reset = .ok r.reset
  rw [advance, if_pos hempty]

end Run

namespace Solver

/-- The solvers that calls on a new one lead to: solves with any input and any outcome, and cells
put on the front from outside. -/
inductive Reachable (mesh : Mesh α) : Solver α → Prop
  | new (bound? : Option Int) : Reachable mesh (Solver.new mesh bound?)
  | solve {s : Solver α} (metric : NdArray α) (starts : Json) :
    Reachable mesh s → Reachable mesh (s.solve metric starts).1
  | putOnFront {s : Solver α} (c : Int) : Reachable mesh s → Reachable mesh (s.putOnFront c)

/-- What a solve returns or raises after its run. -/
def outcome : Except (Stopped α) (Run α) → Except (SolveError α) (Array α)
  | .ok r => .ok r.solution
  | .error e => .error (.stopped e.cause)

variable {s : Solver α} {metric : NdArray α} {starts : Json} {field : MetricField α}
  {cells : List Nat}

/-- A solve whose input is accepted leaves the run of its field and start cells. -/
theorem solve_eq (h : s.checkInput metric starts = .ok (field, cells)) :
    (s.solve metric starts).1 =
        { s.begin field with run := Run.left (s.run.solve ⟨s.mesh, field⟩ s.bound cells) } ∧
      (s.solve metric starts).2 = outcome (s.run.solve ⟨s.mesh, field⟩ s.bound cells) := by
  unfold solve solveFrom
  rw [h]
  dsimp only
  cases cells with
  | nil =>
    rw [Run.solve_nil]
    exact ⟨rfl, rfl⟩
  | cons c cs =>
    cases s.run.solve ⟨s.mesh, field⟩ s.bound (c :: cs) with
    | ok r => exact ⟨rfl, rfl⟩
    | error e => exact ⟨rfl, rfl⟩

theorem run_solve (h : s.checkInput metric starts = .ok (field, cells)) :
    (s.solve metric starts).1.run = Run.left (s.run.solve ⟨s.mesh, field⟩ s.bound cells) := by
  rw [(solve_eq h).1]

/-- A solve that returns leaves the run that came to its end, and returns the values of it. -/
theorem exists_run_of_returned {u : Array α} (h : s.checkInput metric starts = .ok (field, cells))
    (hret : (s.solve metric starts).2 = .ok u) :
    ∃ r, s.run.solve ⟨s.mesh, field⟩ s.bound cells = .ok r ∧ (s.solve metric starts).1.run = r ∧
      r.solution = u := by
  rw [(solve_eq h).2] at hret
  rw [run_solve h]
  cases hrun : s.run.solve ⟨s.mesh, field⟩ s.bound cells with
  | error e =>
    rw [hrun] at hret
    cases hret
  | ok r =>
    rw [hrun] at hret
    cases hret
    exact ⟨r, rfl, rfl, rfl⟩

theorem solve_of_error {e : SolveError α} (h : s.checkInput metric starts = .error e) :
    s.solve metric starts = (s, .error e) := by
  unfold solve
  rw [h]

theorem trace_eq (h : s.checkInput metric starts = .ok (field, cells)) :
    s.trace metric starts = s.run.trace ⟨s.mesh, field⟩ s.bound cells := by
  unfold trace
  rw [h]

/-- A solver keeps its mesh, and its run the number of cells. -/
theorem Reachable.sized {mesh : Mesh α} (h : Reachable mesh s) :
    s.mesh = mesh ∧ s.run.Sized mesh.size := by
  induction h with
  | new bound? => exact ⟨rfl, Run.sized_fresh _⟩
  | @solve s metric starts _ ih =>
    cases hin : s.checkInput metric starts with
    | error e =>
      rw [solve_of_error hin]
      exact ih
    | ok input =>
      obtain ⟨field, cells⟩ := input
      rw [(solve_eq hin).1]
      exact ⟨ih.1, ih.2.solve _ _⟩
  | putOnFront c _ ih => exact ⟨ih.1, ih.2.solution, ih.2.state, ih.2.accepted⟩

omit [Scalar α] in
/-- By default as many acceptances are allowed as there are cells. -/
theorem bound_of_none (h : s.bound? = none) : s.bound = s.mesh.size := by
  unfold bound
  rw [h]
  rfl

/-- Input is accepted if each part of it is. -/
theorem checkInput_eq_ok_iff : s.checkInput metric starts = .ok (field, cells) ↔
    MetricField.ofArray s.size metric = .ok field ∧ startCells s.size starts = .ok cells := by
  unfold checkInput
  cases MetricField.ofArray s.size metric with
  | error e => simp
  | ok f => cases startCells s.size starts <;> simp

/-- Accepted start cells are cells, and are listed in ascending order. -/
theorem starts_of_checkInput (h : s.checkInput metric starts = .ok (field, cells)) :
    cells.Pairwise (· < ·) ∧ ∀ c ∈ cells, c < s.mesh.size := by
  obtain ⟨-, hcells⟩ := checkInput_eq_ok_iff.mp h
  unfold startCells at hcells
  split at hcells
  · cases hcells
  · rename_i parts _
    cases hparts : parts.mapM (startCell s.size) with
    | error e =>
      rw [hparts] at hcells
      cases hcells
    | ok ids =>
      rw [hparts] at hcells
      cases hcells
      refine ⟨List.pairwise_lt_range.filter _, fun c hc => ?_⟩
      exact List.mem_range.mp (List.mem_filter.mp hc).1

/-! ### A small solver -/

/-- Three cells, of which the first two are linked. -/
def sampleGrid : CellGrid Float :=
  { dimensions := 2
    centroids := #[#[0, 0], #[1, 0], #[5, 5]]
    links? := some [[.ok 1], [.ok 0], []] }

def sampleMesh : Mesh Float := .ofTable sampleGrid.points #[[1], [0], []]

def sampleMetric : NdArray Float :=
  { shape := [3, 2, 2], items := #[1, 0, 0, 1, 4, 0, 0, 1, 1, 0, 0, 1] }

def sampleField : MetricField Float := #[⟨1, 0, 0, 1⟩, ⟨4, 0, 0, 1⟩, ⟨1, 0, 0, 1⟩]

/-- The first cell. -/
def sampleStarts : Json := .array [.int 0]

theorem ofGrid_sampleGrid : Mesh.ofGrid sampleMemory sampleGrid = .ok sampleMesh :=
  Mesh.ofGrid_of_linked rfl rfl (by decide +kernel)

theorem size_sampleMesh : sampleMesh.size = 3 := by
  decide +kernel

theorem checkInput_sample :
    (new sampleMesh none).checkInput sampleMetric sampleStarts = .ok (sampleField, [0]) := by
  have hsize : (new sampleMesh none).size = 3 := size_sampleMesh
  refine checkInput_eq_ok_iff.mpr ⟨MetricField.ofArray_eq_ok_iff.mpr ?_, ?_⟩
  · rw [hsize]
    decide +kernel
  · rw [hsize]
    rfl

/-! ### Two pairs of cells -/

def pairsGrid : CellGrid Float :=
  { dimensions := 2
    centroids := #[#[0, 0], #[1, 0], #[5, 5], #[7, 5]]
    links? := some [[.ok 1], [], [.ok 3], []] }

def pairsMesh : Mesh Float := .ofTable pairsGrid.points #[[1], [0], [3], [2]]

def pairsMetric : NdArray Float :=
  { shape := [16], items := #[1, 0, 0, 1, 9, 0, 0, 9, 1, 0, 0, 1, 1, 0, 0, 1] }

def pairsField : MetricField Float :=
  #[⟨1, 0, 0, 1⟩, ⟨9, 0, 0, 9⟩, ⟨1, 0, 0, 1⟩, ⟨1, 0, 0, 1⟩]

/-- One cell of each pair. -/
def pairsStarts : Json := .array [.int 2, .int 0]

theorem ofGrid_pairsGrid : Mesh.ofGrid sampleMemory pairsGrid = .ok pairsMesh :=
  Mesh.ofGrid_of_linked rfl rfl (by decide +kernel)

theorem size_pairsMesh : pairsMesh.size = 4 := by
  decide +kernel

theorem ofArray_pairsMetric : MetricField.ofArray pairsMesh.size pairsMetric = .ok pairsField := by
  rw [MetricField.ofArray_eq_ok_iff, size_pairsMesh]
  decide +kernel

theorem checkInput_pairs (bound? : Option Int) :
    (new pairsMesh bound?).checkInput pairsMetric pairsStarts = .ok (pairsField, [0, 2]) := by
  refine checkInput_eq_ok_iff.mpr ⟨ofArray_pairsMetric, ?_⟩
  rw [show (new pairsMesh bound?).size = 4 from size_pairsMesh]
  rfl

end Solver

end Eikonal
