import Eikonal.Metric.Ratio
import Eikonal.Solver.Loop
import Eikonal.Solver.Start

/-! A solver is bound to one mesh and can be used again and again. Its fields show the last run that
began; input that is refused leaves them as they are. -/

namespace Eikonal

structure Solver (α : Type) where
  mesh : Mesh α
  /-- The greatest number of acceptances; as many as there are cells, if none is given. -/
  bound? : Option Int
  run : Run α
  /-- The metric of the last run. -/
  metric? : Option (MetricField α)
  /-- For every cell the radius within which other cells are close to it. -/
  closeRadius : Array α

inductive SolveError (α : Type) where
  | metric (why : MetricError)
  | start (why : StartError)
  | stopped (cause : StopCause α)

namespace Solver

variable {α : Type} [Scalar α]

def new (mesh : Mesh α) (bound? : Option Int) : Solver α :=
  { mesh
    bound?
    run := Run.fresh mesh.size
    metric? := none
    closeRadius := Array.replicate mesh.size Scalar.zero }

def size (s : Solver α) : Nat := s.mesh.size

def bound (s : Solver α) : Int := s.bound?.getD s.size

/-- The solver with a new metric and all cells far. -/
def begin (s : Solver α) (metric : MetricField α) : Solver α :=
  { s with
    run := s.run.reset
    metric? := some metric
    closeRadius := Array.zipWith (fun h t => h * t.ratio) s.mesh.spacing metric }

/-- Solves for a metric field and start cells that have been checked. Without start cells every
cell stays far. -/
def solveFrom (s : Solver α) (metric : MetricField α) (starts : List Nat) :
    Solver α × Except (StopCause α) (Array α) :=
  let begun := s.begin metric
  if starts.isEmpty then (begun, .ok begun.run.solution)
  else
    match s.run.solve ⟨s.mesh, metric⟩ s.bound starts with
    | .ok r => ({ begun with run := r }, .ok r.solution)
    | .error e => ({ begun with run := e.run }, .error e.cause)

/-- Checks an array as the metric field and a value as the start cells. -/
def checkInput (s : Solver α) (metric : NdArray α) (starts : Json) :
    Except (SolveError α) (MetricField α × List Nat) :=
  match MetricField.ofArray s.size metric with
  | .error e => .error (.metric e)
  | .ok field =>
    match startCells s.size starts with
    | .error e => .error (.start e)
    | .ok cells => .ok (field, cells)

/-- Solves for a metric given as an array and start cells given as a value. -/
def solve (s : Solver α) (metric : NdArray α) (starts : Json) :
    Solver α × Except (SolveError α) (Array α) :=
  match s.checkInput metric starts with
  | .error e => (s, .error e)
  | .ok (field, cells) =>
    let (after, result) := s.solveFrom field cells
    (after, result.mapError .stopped)

/-- The run after each step of the main loop that `solve` takes. -/
def trace (s : Solver α) (metric : NdArray α) (starts : Json) : List (Run α) :=
  match s.checkInput metric starts with
  | .error _ => []
  | .ok (field, cells) => s.run.trace ⟨s.mesh, field⟩ s.bound cells

/-- Puts a cell on the front and does nothing else. -/
def putOnFront (s : Solver α) (c : Int) : Solver α :=
  { s with run := { s.run with front := s.run.front.insert c } }

end Solver

end Eikonal
