import Eikonal.Binary64.Decimal

/-! Written forms of binary64 numbers: a fixed number of places, scientific notation with a fixed
number of places, and the shortest text that reads back. The first two round the exact binary value,
a half going to the even neighbour. -/

namespace Eikonal.Binary64

/-- Spellings of the numbers that have no digits. -/
structure Spelling where
  nan : String
  inf : String

def Spelling.lower : Spelling := ⟨"nan", "inf"⟩

def sign (x : Binary64) : String := if x.negative then "-" else ""

/-- The text of `x` from the text of its magnitude, which `finite` gives for a finite code. -/
def render (w : Spelling) (finite : Nat → String) (x : Binary64) : String :=
  if x.isNaN then w.nan
  else if x.isInf then x.sign ++ w.inf
  else x.sign ++ finite x.code

/-- The digits of `n`, padded with zeros on the left to at least `width` of them. -/
def digits (n width : Nat) : List Char :=
  let ds := (toString n).toList
  List.replicate (width - ds.length) '0' ++ ds

/-- The digits of `n` with a point before the last `places` of them. -/
def pointed (n places : Nat) : String :=
  let ds := digits n (places + 1)
  let whole := String.ofList (ds.take (ds.length - places))
  if places = 0 then whole else whole ++ "." ++ String.ofList (ds.drop (ds.length - places))

/-- The number with `places` digits after the point. -/
def fixed (places : Nat) (x : Binary64) : String :=
  x.render .lower fun c => pointed (roundDiv ((ratio c).1 * pow10 places) (ratio c).2) places

/-- A power of ten as a signed exponent of at least two digits. -/
def exponentText (e : Int) : String :=
  (if e < 0 then "e-" else "e+") ++ String.ofList (digits e.natAbs 2)

/-- The quotient `num / den` in units of `10 ^ e`, rounded. -/
def roundedUnits (num den : Nat) (e : Int) : Nat :=
  if e < 0 then roundDiv (num * pow10 (-e).toNat) den else roundDiv num (den * pow10 e.toNat)

/-- The number with one digit before the point, `places` after it, and an exponent. -/
def scientific (places : Nat) (x : Binary64) : String :=
  x.render .lower fun c =>
    if c = 0 then pointed 0 places ++ exponentText 0
    else
      let k := leadingExponent (ratio c).1 (ratio c).2
      let n := roundedUnits (ratio c).1 (ratio c).2 (k - places)
      -- rounding up may carry into a new leading digit
      if n < pow10 (places + 1) then pointed n places ++ exponentText k
      else pointed (n / 10) places ++ exponentText (k + 1)

def trimZeros (ds : List Char) : List Char := (ds.reverse.dropWhile (· == '0')).reverse

/-- The text of the decimal `d * 10 ^ e`: positional, with a digit on either side of the point, when
the exponent of its first digit is from -4 to 15, else one digit before the point and an
exponent. -/
def decimalText (d : Nat) (e : Int) : String :=
  let all := (toString d).toList
  let k := e + all.length - 1
  let ds := trimZeros all
  let text (l : List Char) : String := String.ofList l
  if k < -4 || 16 ≤ k then
    let mark := if ds.length ≤ 1 then text ds else text (ds.take 1) ++ "." ++ text (ds.drop 1)
    mark ++ exponentText k
  else if k < 0 then
    "0." ++ text (List.replicate (-k - 1).toNat '0') ++ text ds
  else
    let whole := k.toNat + 1
    let tail := ds.drop whole
    text (ds.take whole) ++ text (List.replicate (whole - ds.length) '0') ++ "." ++
      (if tail.isEmpty then "0" else text tail)

/-- The shortest text that reads back as a finite magnitude. -/
def shortestMagnitude (c : Nat) : String :=
  if c = 0 then "0.0" else decimalText (shortest c).1 (shortest c).2

/-- The shortest text that reads back as `x`. -/
def text (w : Spelling) (x : Binary64) : String := x.render w shortestMagnitude

end Eikonal.Binary64

namespace Eikonal

/-- The shortest text of a binary64 number, as messages show it. -/
def floatText (x : Float) : String := (Binary64.ofFloat x).text .lower

/-- A binary64 number with a fixed number of places. -/
def fixedText (places : Nat) (x : Float) : String := (Binary64.ofFloat x).fixed places

end Eikonal
