import Eikonal.Binary64.Basic

/-! Finite binary64 numbers as whole numbers in units of a common step, where questions about sums
and products of them have exact answers. -/

namespace Eikonal.Lattice

/-- A finite number in units of `2 ^ (q - 1074)`, of which it must be a multiple. -/
def units (q : Nat) (x : Binary64) : Int :=
  let n : Int := Binary64.mantissa x.code * pow2 (Binary64.shift x.code - q)
  if x.negative then -n else n

/-- The finest step `2 ^ (q - 1074)` that one of some numbers needs, given by `q`. -/
def step (xs : Array Binary64) : Nat :=
  xs.foldl (fun q x => if x.code = 0 then q else min q (Binary64.shift x.code))
    (Binary64.shift Binary64.infCode)

end Eikonal.Lattice
