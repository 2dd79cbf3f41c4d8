import Eikonal.Plane

/-! The anisotropy ratio of a tensor: the root of its greatest eigenvalue over its least. The tensor
is brought to a size at which squares of its entries neither overflow nor vanish, and the
eigenvalues are brought back. -/

namespace Eikonal.Tensor

variable {α : Type} [Scalar α]

def powerOfTwo (n : Nat) : α := Scalar.natCast (Nat.pow 2 n)

def leastSize : α := Scalar.one / powerOfTwo 405

def greatestSize : α := powerOfTwo 485

/-- The magnitude of the largest entry, the upper off-diagonal one left out. -/
def size (m : Tensor α) : α :=
  Scalar.upper (Scalar.upper (Scalar.abs m.xx) (Scalar.abs m.yx)) (Scalar.abs m.yy)

/-- The factor that brings a tensor other than zero to a size in bounds. -/
def sizeFactor (m : Tensor α) : α :=
  if Scalar.lt Scalar.zero m.size && Scalar.lt m.size leastSize then leastSize / m.size
  else if Scalar.lt greatestSize m.size then greatestSize / m.size
  else Scalar.one

/-- The eigenvalue of larger magnitude, then the other one, of the symmetric tensor with diagonal
`a`, `c` and the off-diagonal entry `b`, which is not negative. The second comes from the
determinant, so it loses no digits when the two are far apart. -/
def symmetricEigenvalues (a b c : α) : α × α :=
  let sum := a + c
  let gap := Scalar.hypot (a - c) (b + b)
  let half : α := Scalar.one / Scalar.two
  let swap := Scalar.lt (Scalar.abs a) (Scalar.abs c)
  let major := if swap then c else a
  let minor := if swap then a else c
  let other (e : α) : α := major / e * minor - b / e * b
  if Scalar.lt sum Scalar.zero then
    let e := half * (sum - gap)
    (e, other e)
  else if Scalar.lt Scalar.zero sum then
    let e := half * (sum + gap)
    (e, other e)
  else (half * gap, -(half * gap))

/-- The eigenvalues of the symmetric tensor made of the diagonal and the lower off-diagonal entry.
If the square of that entry vanishes, they are the diagonal. -/
def eigenvalues (m : Tensor α) : α × α :=
  let square := m.yx * m.yx
  if Scalar.eq square Scalar.zero then (m.xx, m.yy)
  else symmetricEigenvalues m.xx (Scalar.sqrt square) m.yy

/-- The root of the greater eigenvalue over the lesser, signs included; not a number if an entry
that counts is not finite. -/
def ratio (m : Tensor α) : α :=
  if [m.xx, m.yx, m.yy].all Scalar.isFinite then
    let (a, b) := (m.scale m.sizeFactor).eigenvalues
    let back := Scalar.one / m.sizeFactor
    Scalar.sqrt (Scalar.upper (a * back) (b * back) / Scalar.lower (a * back) (b * back))
  else Scalar.inf - Scalar.inf

end Eikonal.Tensor
