import Eikonal.Scalar.Basic

/-! Binary64 numbers are scalars: every operation is the one of IEEE arithmetic. -/

namespace Eikonal

instance : Scalar Float where
  zero := 0
  one := 1
  inf := 1 / 0
  natCast := Float.ofNat
  decimal m e := Float.ofScientific m true e
  sqrt := Float.sqrt
  atan2 := Float.atan2
  cos := Float.cos
  sin := Float.sin
  lt a b := a < b
  eq a b := a == b
  isFinite := Float.isFinite

/-- The binary64 NaN. -/
def nan : Float := 0 / 0

end Eikonal
