import Eikonal.Plane

/-! Local updates. The cost of a straight segment `d` is its length in the metric of the receiving
cell. A line update comes from one accepted neighbour. A triangle update takes the least arrival
over the segment between two of them, where times are interpolated linearly.

With `e` from the second neighbour to the cell, `w` from the first neighbour to the second, `A`, `B`
and `C` the metric's form at `(w, w)`, `(w, e)` and `(e, e)`, and `delta` the difference of the two
times, the arrival over the point at `lam` is convex in `lam`. Its slope vanishes only if
`delta ^ 2 < A`, at `(-delta * sqrt (D / (A - delta ^ 2)) - B) / A` with `D = A * C - B ^ 2`. -/

namespace Eikonal.Stencil

variable {α : Type} [Scalar α]

/-- The arrival at `c` straight from `j`. -/
def line (c j : Vec α) (uj : α) (m : Tensor α) : α := uj + m.length (c - j)

def wedgeTolerance : α := Scalar.decimal 1 12

/-- Whether the turn from `j` to `k` about `c` is counter-clockwise and below a half turn. Collinear
and reflex pairs bound no triangle with `c`. -/
def isWedge (c j k : Vec α) (tol : α := wedgeTolerance) : Bool :=
  let a := j - c
  let b := k - c
  Scalar.lt (tol * a.norm * b.norm) (a.cross b)

/-- What a triangle update depends on: the forms `A`, `B`, `C` and the two times. -/
structure Chord (α : Type) where
  A : α
  B : α
  C : α
  uj : α
  uk : α

namespace Chord

def of (c j : Vec α) (uj : α) (k : Vec α) (uk : α) (m : Tensor α) : Chord α :=
  let e := c - k
  let w := k - j
  { A := m.form w w, B := m.form w e, C := m.form e e, uj, uk }

def delta (t : Chord α) : α := t.uj - t.uk

def D (t : Chord α) : α := t.A * t.C - t.B * t.B

/-- The arrival over the point at `lam`, where zero is the second neighbour and one the first. -/
def cost (t : Chord α) (lam : α) : α :=
  let q := t.A * lam * lam + Scalar.two * t.B * lam + t.C
  t.uk + lam * t.delta + Scalar.sqrt (Scalar.upper q Scalar.zero)

def stationary? (t : Chord α) : Option α :=
  if Scalar.lt Scalar.zero t.A && Scalar.lt Scalar.zero t.D &&
      Scalar.lt (t.delta * t.delta) t.A then
    some ((-t.delta * Scalar.sqrt (t.D / (t.A - t.delta * t.delta)) - t.B) / t.A)
  else none

/-- The least arrival over the segment. -/
def least (t : Chord α) : α :=
  let ends := Scalar.lower (t.cost Scalar.zero) (t.cost Scalar.one)
  match t.stationary? with
  | some lam =>
    if Scalar.lt Scalar.zero lam && Scalar.lt lam Scalar.one then Scalar.lower ends (t.cost lam)
    else ends
  | none => ends

/-- The least arrival, raised to the later of the two times so that both stay upwind. -/
def value (t : Chord α) : α := Scalar.upper (Scalar.upper t.least t.uj) t.uk

end Chord

/-- The arrival at `c` over the segment from `j` to `k`. -/
def triangle (c j : Vec α) (uj : α) (k : Vec α) (uk : α) (m : Tensor α) : α :=
  (Chord.of c j uj k uk m).value

end Eikonal.Stencil
