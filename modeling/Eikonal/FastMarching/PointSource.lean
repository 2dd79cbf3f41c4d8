import Eikonal.Binary64.Text
import Eikonal.FastMarching.Basic
import Eikonal.Scalar.Float
import Eikonal.Scalar.Sum

/-! Fast marching from a point source in a uniform medium, measured against the exact distance. -/

namespace Eikonal.FastMarching.PointSource

/-- The exact distances from the middle of a unit square with `n` nodes along each side. -/
def distances (n : Nat) : List Float :=
  let xs : List Float := Scalar.evenly 0 1 n
  let middle := xs.getD (n / 2) 0
  xs.flatMap fun y => xs.map fun x =>
    Float.sqrt (Scalar.sq (x - middle) + Scalar.sq (y - middle))

/-- The errors of fast marching on a unit square with `n` nodes along each side. -/
def errors (n : Nat) : Except FieldError (List Float) :=
  let step : Float := 1 / Float.ofNat (n - 1)
  let seeds := (Array.replicate (n * n) false).setIfInBounds (n / 2 * n + n / 2) true
  (travelTime { shape := [n, n], items := seeds } ⟨step, step⟩ (.scalar 1)).map fun t =>
    List.zipWith (fun a b => (a - b).abs) t.items.toList (distances n)

/-- The lines about the greatest and the mean error. -/
def lines (errors : List Float) : List String :=
  let text (x : Float) : String := (Binary64.ofFloat x).scientific 6
  let greatest := (Scalar.greatest? errors).getD nan
  ["Fast Marching Method point source:",
    s!"  Max error:  {text greatest}",
    s!"  Mean error: {text (Scalar.mean errors)}"]

def defaultNodes : Nat := 101

end Eikonal.FastMarching.PointSource
