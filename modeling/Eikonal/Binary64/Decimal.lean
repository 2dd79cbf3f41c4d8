import Eikonal.Binary64.Basic

/-! Decimal numbers `d * 10 ^ e` and binary64: reading one rounds it to the nearest binary64 number,
and `shortest` finds the decimal with the fewest digits that reads back as a given number. -/

namespace Eikonal.Binary64

/-- The number of decimal digits of `n`; one for zero. -/
def digitCount (n : Nat) : Nat := if n < 10 then 1 else digitCount (n / 10) + 1

/-- The decimal `d * 10 ^ e` as a quotient. -/
def decimalRatio (d : Nat) (e : Int) : Nat × Nat :=
  if e < 0 then (d, pow10 (-e).toNat) else (d * pow10 e.toNat, 1)

/-- The code of the magnitude nearest to `d * 10 ^ e`. A decimal from `10 ^ 309` on rounds to
infinity and one below `10 ^ (-324)` to zero, so no power out of that range is computed. -/
def codeOfDecimal (d : Nat) (e : Int) : Nat :=
  if d = 0 then 0
  else
    let top := (digitCount d : Int) + e
    if top ≤ -324 then 0
    else if 309 < top then infCode
    else codeOfRatio (decimalRatio d e).1 (decimalRatio d e).2

/-- The binary64 number nearest to the decimal `d * 10 ^ e`, with the given sign. -/
def ofDecimal (negative : Bool) (d : Nat) (e : Int) : Binary64 :=
  ofCode negative (codeOfDecimal d e)

/-- The exponent `k` with `10 ^ k ≤ num / den < 10 ^ (k + 1)`, for a positive quotient. -/
def leadingExponent (num den : Nat) : Int :=
  if den ≤ num then (digitCount (num / den) : Int) - 1
  else
    -- the inverse of the quotient, rounded up, is at most `10 ^ (-k)` and above `10 ^ (-k - 1)`
    Int.negOfNat (digitCount ((den + num - 1) / num - 1))

/-- The factors of the two multiples of `10 ^ e` around `num / den`, the nearer one first; of two
that are equally near, the even one. -/
def neighbours (num den : Nat) (e : Int) : Nat × Nat :=
  let n := if e < 0 then num * pow10 (-e).toNat else num
  let d := if e < 0 then den else den * pow10 e.toNat
  let q := n / d
  let r := n % d
  if 2 * r < d || (2 * r = d && q % 2 = 0) then (q, q + 1) else (q + 1, q)

/-- The nearest decimal on the grid of step `10 ^ e` that reads back as the code `c`. -/
def readsBackOn? (c : Nat) (e : Int) : Option (Nat × Int) :=
  let near := neighbours (ratio c).1 (ratio c).2 e
  if codeOfDecimal near.1 e = c then some (near.1, e)
  else if codeOfDecimal near.2 e = c then some (near.2, e)
  else none

/-- The decimal `d * 10 ^ e` with the fewest digits that reads back as the finite code `c`, the
nearest one of them, and of two equally near ones the even one. Seventeen digits always suffice; the
exact value stands at the end so that the search needs no proof to be total. -/
def shortest (c : Nat) : Nat × Int :=
  let k := leadingExponent (ratio c).1 (ratio c).2
  ((List.range 17).findSome? fun (i : Nat) => readsBackOn? c (k - i)).getD
    ((ratio c).1 * Nat.pow 5 1074, -1074)

end Eikonal.Binary64
