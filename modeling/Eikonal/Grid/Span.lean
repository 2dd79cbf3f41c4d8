import Eikonal.Grid.Lattice
import Eikonal.Scalar.Float

/-! In how many directions points stretch. The singular values of the centred coordinates say how
far they do, and a value counts if it exceeds the greatest one times a tolerance. The values
themselves are not computed: the sums of the squared minors of the coordinates are the elementary
symmetric functions of their squares, and these sums are exact on a lattice. -/

namespace Eikonal.Span

/-- The rows with the mean of every column taken off. -/
def centred (columns : Nat) (rows : Array (Array Float)) : Array (Array Float) :=
  let mean (k : Nat) : Float :=
    rows.foldl (fun s r => s + r.getD k 0) 0 / Float.ofNat rows.size
  let means := ((List.range columns).map mean).toArray
  rows.map fun r => Array.zipWith (· - ·) r means

/-- The sums of the squared minors of order one, two and three. -/
structure Minors where
  one : Int
  two : Int
  three : Int

/-- The minors of a table of whole numbers, from the scalar products of its columns. -/
def Minors.ofRows (columns : Nat) (rows : Array (Array Int)) : Minors :=
  let product (i j : Nat) : Int := rows.foldl (fun s r => s + r.getD i 0 * r.getD j 0) 0
  let products := ((List.range columns).map fun i =>
    ((List.range columns).map (product i)).toArray).toArray
  let g (i j : Nat) : Int := (products.getD i #[]).getD j 0
  let later (i : Nat) : List Nat := List.range' (i + 1) (columns - (i + 1))
  let two (i j : Nat) : Int := g i i * g j j - g i j * g i j
  let three (i j k : Nat) : Int :=
    g i i * two j k - g i j * (g i j * g k k - g j k * g i k) +
      g i k * (g i j * g j k - g j j * g i k)
  let all := List.range columns
  let total (l : List Int) : Int := l.foldl (· + ·) 0
  { one := total (all.map fun i => g i i)
    two := total (all.flatMap fun i => (later i).map (two i))
    three := total (all.flatMap fun i => (later i).flatMap fun j => (later j).map (three i j)) }

/-- Whether exactly two of the singular values count, for a table of `rows` by `columns` numbers in
units of `2 ^ (q - 1074)`. With `a`, `b` and `c` the minors and `r` the squared tolerance, the
second value counts if `r * a ^ 2 < (1 + r) ^ 2 * b`, and the third one does if `r * a * b < c`. A
second value of at most `2 ^ (-1075)` vanishes. -/
def isPlane (rows columns q : Nat) (m : Minors) : Bool :=
  let widest := max rows columns
  let r : Int := widest * widest
  -- the tolerance is the greater number of rows and columns times `2 ^ (-52)`
  let unit : Int := pow2 104
  let half : Int := pow2 (2 * (q + 1))
  r * unit * (m.one * m.one) < (unit + r) * (unit + r) * m.two &&
    m.one * half < 1 + m.two * half * half &&
    !(r * (m.one * m.two) < unit * m.three)

/-- Whether the rows, taken as points, stretch in exactly two directions about their mean. Nothing
can be said if a coordinate about the mean is not a number, and infinite ones stretch in none. -/
def plane? (columns : Nat) (rows : Array (Array Float)) : Option Bool :=
  let about := centred columns rows
  let all := about.flatMap id
  if all.any Scalar.isNaN then none
  else if !all.all Scalar.isFinite then some false
  else
    let q := Lattice.step (all.map Binary64.ofFloat)
    let table := about.map fun r => r.map fun x => Lattice.units q (Binary64.ofFloat x)
    some (isPlane rows.size columns q (.ofRows columns table))

end Eikonal.Span
