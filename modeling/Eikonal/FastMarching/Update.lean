import Eikonal.Scalar.Basic

/-! The upwind update of fast marching. With `tx` and `ty` the least known values beside a node
along the two axes, the arrival `t` solves
`((t - tx) / dx) ^ 2 + ((t - ty) / dy) ^ 2 = s ^ 2`, where an axis without a known value drops
out. -/

namespace Eikonal.FastMarching

inductive UpdateError where
  | overflow
  | zeroStep
deriving DecidableEq, Repr

/-- The distances between nodes along the axes. -/
structure Steps (α : Type) where
  dx : α
  dy : α

variable {α : Type} [Scalar α]

/-- The square of a step, by which the update divides. -/
def square (d : α) : Except UpdateError α :=
  let q := Scalar.sq d
  if Scalar.isFinite d && !Scalar.isFinite q then .error .overflow
  else if Scalar.eq q Scalar.zero then .error .zeroStep
  else .ok q

/-- The update from one axis or the other alone, whichever is earlier. -/
def oneSided (h : Steps α) (s tx ty : α) : α := Scalar.lower (tx + s * h.dx) (ty + s * h.dy)

/-- The update from both axes, given the squares of the steps. The larger root counts, provided that
it is upwind of both values; otherwise one axis alone decides. -/
def twoSided (h : Steps α) (xx yy s tx ty : α) : α :=
  let a := Scalar.one / xx + Scalar.one / yy
  let b := -Scalar.two * (tx / xx + ty / yy)
  let c := Scalar.sq tx / xx + Scalar.sq ty / yy - Scalar.sq s
  let discriminant := Scalar.sq b - Scalar.natCast 4 * a * c
  let root := (-b + Scalar.sqrt discriminant) / (Scalar.two * a)
  if Scalar.le Scalar.zero discriminant && Scalar.le (Scalar.upper tx ty) root then root
  else oneSided h s tx ty

/-- The arrival at a node of slowness `s`; nothing if neither axis has a known value. -/
def arrival? (h : Steps α) (s tx ty : α) : Except UpdateError (Option α) :=
  if Scalar.lt tx Scalar.inf then
    if Scalar.lt ty Scalar.inf then do
      let xx ← square h.dx
      let yy ← square h.dy
      return some (twoSided h xx yy s tx ty)
    else .ok (some (tx + s * h.dx))
  else if Scalar.lt ty Scalar.inf then .ok (some (ty + s * h.dy))
  else .ok none

end Eikonal.FastMarching
