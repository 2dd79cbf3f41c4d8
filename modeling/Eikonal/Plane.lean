import Eikonal.Scalar.Basic

/-! Vectors and second-order tensors of the plane. -/

namespace Eikonal

structure Vec (α : Type) where
  x : α
  y : α
deriving DecidableEq, Repr

structure Tensor (α : Type) where
  xx : α
  xy : α
  yx : α
  yy : α
deriving DecidableEq, Repr

variable {α : Type} [Scalar α]

namespace Vec

instance : Inhabited (Vec α) := ⟨⟨Scalar.zero, Scalar.zero⟩⟩

instance : Sub (Vec α) where
  sub a b := ⟨a.x - b.x, a.y - b.y⟩

def dot (a b : Vec α) : α := a.x * b.x + a.y * b.y

/-- Positive when the turn from `a` to `b` is counter-clockwise. -/
def cross (a b : Vec α) : α := a.x * b.y - a.y * b.x

def norm (a : Vec α) : α := Scalar.sqrt (a.x * a.x + a.y * a.y)

/-- A quarter turn counter-clockwise. -/
def turned (a : Vec α) : Vec α := ⟨-a.y, a.x⟩

/-- The angle of the vector, from `-π` to `π`. -/
def angle (a : Vec α) : α := Scalar.atan2 a.y a.x

end Vec

namespace Tensor

instance : Inhabited (Tensor α) := ⟨⟨Scalar.zero, Scalar.zero, Scalar.zero, Scalar.zero⟩⟩

instance : Add (Tensor α) where
  add a b := ⟨a.xx + b.xx, a.xy + b.xy, a.yx + b.yx, a.yy + b.yy⟩

def scale (s : α) (m : Tensor α) : Tensor α := ⟨s * m.xx, s * m.xy, s * m.yx, s * m.yy⟩

/-- The product of `u` with itself as a tensor. -/
def outer (u : Vec α) : Tensor α := ⟨u.x * u.x, u.x * u.y, u.y * u.x, u.y * u.y⟩

/-- The row vector `v` times the tensor. -/
def row (m : Tensor α) (v : Vec α) : Vec α := ⟨v.x * m.xx + v.y * m.yx, v.x * m.xy + v.y * m.yy⟩

/-- The bilinear form of the tensor at `v` and `w`. -/
def form (m : Tensor α) (v w : Vec α) : α := (m.row v).dot w

def det (m : Tensor α) : α := m.xx * m.yy - m.xy * m.yx

def entries (m : Tensor α) : List α := [m.xx, m.xy, m.yx, m.yy]

/-- The length of `d` in the metric of the tensor: the root of its form at `d`, or of zero if the
form is negative. -/
def length (m : Tensor α) (d : Vec α) : α := Scalar.sqrt (Scalar.upper (m.form d d) Scalar.zero)

end Tensor

end Eikonal
