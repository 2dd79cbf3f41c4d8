import Eikonal.Solver.Basic

/-! Questions to a solver between runs. Cells are given by ids from outside; an id below zero counts
from the end. -/

namespace Eikonal

inductive QueryError where
  /-- There is no such cell. -/
  | outOfRange
  /-- No run has given the solver a metric. -/
  | noMetric
  | unreached (cell : Int)
deriving DecidableEq, Repr

namespace Solver

variable {α : Type} [Scalar α]

/-- The cell that an id means. -/
def cell (s : Solver α) (i : Int) : Except QueryError Nat :=
  match place? s.size i with
  | some c => .ok c
  | none => .error .outOfRange

/-- The mesh with the metric of the last run. -/
def medium (s : Solver α) : Except QueryError (Medium α) :=
  match s.metric? with
  | some metric => .ok ⟨s.mesh, metric⟩
  | none => .error .noMetric

/-- Whether the second cell is close to the first: it is a neighbour, or it lies within the close
radius of the first. -/
def isClose (s : Solver α) (a b : Int) : Except QueryError Bool := do
  let c ← s.cell a
  if (s.mesh.around c).any fun d => (d : Int) = b then return true
  let d ← s.cell b
  return Scalar.le (s.mesh.point c - s.mesh.point d).norm (s.closeRadius.getD c Scalar.zero)

/-- The value of a cell from the front as it is. A metric is needed only if some neighbour of the
cell stands on the front. -/
def value (s : Solver α) (i : Int) : Except QueryError α := do
  let c ← s.cell i
  if (s.mesh.around c).any fun d => s.run.front.contains d then
    let m ← s.medium
    match m.tentative? s.run.front s.run.solution c with
    | some v => return v
    | none => throw (.unreached i)
  else throw (.unreached i)

/-- The line update of one cell from another. -/
def lineValue (s : Solver α) (i j : Int) : Except QueryError α := do
  let c ← s.cell i
  let d ← s.cell j
  let m ← s.medium
  return m.fromLine s.run.solution c d

/-- The triangle update of a cell from two others. Two equal ids, and cells that bound no wedge,
give infinity without a metric. -/
def triangleValue (s : Solver α) (i j k : Int) : Except QueryError α := do
  let c ← s.cell i
  if j = k then return Scalar.inf
  let d ← s.cell j
  let e ← s.cell k
  if Stencil.isWedge (s.mesh.point c) (s.mesh.point d) (s.mesh.point e) then
    let m ← s.medium
    return m.fromTriangle s.run.solution c d e
  else return Scalar.inf

end Solver

end Eikonal
