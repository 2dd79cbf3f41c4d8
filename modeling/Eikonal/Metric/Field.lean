import Eikonal.NdArray
import Eikonal.Plane

/-! Metric fields: one symmetric positive definite tensor for every cell. `MetricField.ofArray`
reads one from an array, either one 2x2 table for every cell or all entries in a row. -/

namespace Eikonal

/-- A tensor for every cell. -/
abbrev MetricField (α : Type) := Array (Tensor α)

inductive MetricError where
  | shape (cells : Int) (got : List Nat)
  | notFinite
  | notSymmetric (cell : Nat)
  | notDefinite (cell : Nat)
deriving DecidableEq, Repr

def MetricError.message : MetricError → String
  | shape n got =>
    "Metric must have shape " ++ shapeText [n, 2, 2] ++ " or " ++ shapeText [4 * n] ++ ", got " ++
      shapeText (got.map Int.ofNat)
  | notFinite => "Metric contains non-finite entries"
  | notSymmetric c => s!"Metric is not symmetric in cell {c}"
  | notDefinite c => s!"Metric is not positive definite in cell {c}"

variable {α : Type} [Scalar α]

namespace Tensor

def isFinite (m : Tensor α) : Bool := m.entries.all Scalar.isFinite

/-- Whether the off-diagonal entries differ by more than `rtol` times the size of the diagonal, or
times one if the diagonal is smaller. -/
def isAsymmetric (rtol : α) (m : Tensor α) : Bool :=
  Scalar.lt (rtol * Scalar.upperOrNaN (Scalar.abs m.xx + Scalar.abs m.yy) Scalar.one)
    (Scalar.abs (m.xy - m.yx))

/-- Whether the first entry or the determinant is zero or negative. -/
def isIndefinite (m : Tensor α) : Bool := Scalar.le m.xx Scalar.zero || Scalar.le m.det Scalar.zero

end Tensor

namespace MetricField

def tolerance : α := Scalar.decimal 1 10

/-- The tensors in an array of shape `(n, 2, 2)` or `(4 n,)`. -/
def tensors? (cells : Int) (a : NdArray α) : Option (MetricField α) :=
  let shape := a.shape.map Int.ofNat
  if shape = [cells, 2, 2] || shape = [4 * cells] then
    some ((a.groups 4).map fun g =>
      ⟨g.getD 0 Scalar.zero, g.getD 1 Scalar.zero, g.getD 2 Scalar.zero, g.getD 3 Scalar.zero⟩)
  else none

/-- Reads a metric field for the given number of cells. The checks run in the order shape,
finiteness, symmetry, definiteness, and the last two name the first cell that fails. -/
def ofArray (cells : Int) (a : NdArray α) (rtol : α := tolerance) :
    Except MetricError (MetricField α) :=
  match tensors? cells a with
  | none => .error (.shape cells a.shape)
  | some m =>
    if !m.all Tensor.isFinite then .error .notFinite
    else if let some c := m.findIdx? (Tensor.isAsymmetric rtol) then .error (.notSymmetric c)
    else if let some c := m.findIdx? Tensor.isIndefinite then .error (.notDefinite c)
    else .ok m

/-- The array of shape `(n, 2, 2)` that holds a field. -/
def toArray (m : MetricField α) : NdArray α :=
  { shape := [m.size, 2, 2], items := m.flatMap fun t => t.entries.toArray }

end MetricField

end Eikonal
