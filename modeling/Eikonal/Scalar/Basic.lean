/-! Scalars: the arithmetic that coordinates, metric entries and arrival times need. The stencils,
grids and solvers are written over `Scalar`, so that one definition runs on binary64 numbers and is
reasoned about over any other numbers, exact ones included. -/

namespace Eikonal

/-- Numbers with an infinity and comparisons that may all fail, as they do for a NaN. -/
class Scalar (α : Type) extends Add α, Sub α, Mul α, Div α, Neg α where
  zero : α
  one : α
  /-- The value of a cell that nothing has reached. -/
  inf : α
  natCast : Nat → α
  /-- The number `m / 10 ^ e`. -/
  decimal (m e : Nat) : α
  sqrt : α → α
  /-- The angle of the vector `(x, y)`, from `-π` to `π`. -/
  atan2 (y x : α) : α
  cos : α → α
  sin : α → α
  lt : α → α → Bool
  /-- Equality as numbers: the two zeros are equal, and a NaN equals nothing. -/
  eq : α → α → Bool
  isFinite : α → Bool

namespace Scalar

variable {α : Type} [Scalar α]

/-- Not a number: unequal to itself. -/
def isNaN (a : α) : Bool := !eq a a

def le (a b : α) : Bool := lt a b || eq a b

/-- The lesser of two numbers; `a` when `b` is not strictly below it. -/
def lower (a b : α) : α := if lt b a then b else a

/-- The greater of two numbers; `a` when `b` is not strictly above it. -/
def upper (a b : α) : α := if lt a b then b else a

def abs (a : α) : α := if lt a zero then -a else a

def sq (a : α) : α := a * a

def two : α := natCast 2

/-- The greater of two numbers, a NaN on either side being kept; `b` if they are equal. -/
def upperOrNaN (a b : α) : α := if isNaN a || lt b a then a else b

/-- The lesser of two numbers, a NaN on either side being kept; `b` if they are equal. -/
def lowerOrNaN (a b : α) : α := if isNaN a || lt a b then a else b

/-- The least of some candidates; infinity if there is none. A NaN is passed over. -/
def leastOf (l : List α) : α := l.foldl lower inf

/-- The greatest of some numbers, the last of those that are equal; NaN if there is a NaN among
them. -/
def greatest? : List α → Option α
  | [] => none
  | a :: rest => some (rest.foldl upperOrNaN a)

/-- The least of some numbers, the last of those that are equal; NaN if there is a NaN among
them. -/
def least? : List α → Option α
  | [] => none
  | a :: rest => some (rest.foldl lowerOrNaN a)

/-- `n` numbers at equal steps from `a` to `b`, both ends included. A single number is `a`. -/
def evenly (a b : α) (n : Nat) : List α :=
  let parts := n - 1
  let step := (b - a) / natCast parts
  (List.range n).map fun k =>
    if parts = 0 then a
    else if k = parts then b
    else if eq step zero then natCast k / natCast parts * (b - a) + a
    else natCast k * step + a

/-- The length of the hypotenuse, without squaring the longer side. -/
def hypot (a b : α) : α :=
  let a := abs a
  let b := abs b
  if lt b a then a * sqrt (one + sq (b / a))
  else if lt a b then b * sqrt (one + sq (a / b))
  else if eq a b then a * sqrt two
  else a + b

end Scalar

end Eikonal
