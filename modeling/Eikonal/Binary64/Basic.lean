/-! Binary64 numbers as bit patterns. A finite number is `m * 2 ^ q`; its magnitude code, the bits
below the sign, grows with its size, so rounding a quotient means finding the nearest code. -/

namespace Eikonal

abbrev pow2 (n : Nat) : Nat := Nat.pow 2 n

abbrev pow10 (n : Nat) : Nat := Nat.pow 10 n

/-- A binary64 number, given by its 64 bits. -/
structure Binary64 where
  bits : UInt64
deriving DecidableEq, Repr

namespace Binary64

def ofFloat (x : Float) : Binary64 := ⟨x.toBits⟩

def toFloat (x : Binary64) : Float := Float.ofBits x.bits

/-- The magnitude code of infinity; the codes above it are NaNs. -/
def infCode : Nat := 2047 * pow2 52

def negative (x : Binary64) : Bool := pow2 63 ≤ x.bits.toNat

/-- The bits below the sign. -/
def code (x : Binary64) : Nat := x.bits.toNat % pow2 63

def ofCode (negative : Bool) (code : Nat) : Binary64 :=
  ⟨UInt64.ofNat (if negative then pow2 63 + code else code)⟩

def isNaN (x : Binary64) : Bool := infCode < x.code

def isInf (x : Binary64) : Bool := x.code == infCode

def isFinite (x : Binary64) : Bool := x.code < infCode

/-- The factor `m` of the finite number `m * 2 ^ q` with code `c`. -/
def mantissa (c : Nat) : Nat := if c < pow2 52 then c else pow2 52 + c % pow2 52

/-- `q + 1074` for the finite number `m * 2 ^ q` with code `c`. -/
def shift (c : Nat) : Nat := c / pow2 52 - 1

/-- A finite magnitude as a quotient of natural numbers. -/
def ratio (c : Nat) : Nat × Nat := (mantissa c * pow2 (shift c), pow2 1074)

/-- `num / den` rounded to a natural number, a half going to the even neighbour. -/
def roundDiv (num den : Nat) : Nat :=
  let q := num / den
  let r := num % den
  if 2 * r < den then q
  else if den < 2 * r then q + 1
  else if q % 2 = 0 then q else q + 1

/-- The code of the binary64 magnitude nearest to `num / den`, ties to the even code. From the
largest finite magnitude on by half a unit, that is the code of infinity. -/
def codeOfRatio (num den : Nat) : Nat :=
  if num = 0 then 0
  else
    -- `num / den` lies strictly between `2 ^ (l - 1)` and `2 ^ (l + 1)`
    let l : Int := (num.log2 : Int) - den.log2
    let below (s : Nat) : Bool := num * pow2 1074 < den * pow2 (s + 53)
    let s₀ := (l - 53 + 1074).toNat
    let s := if below s₀ then s₀ else s₀ + 1
    let q := roundDiv (num * pow2 1074) (den * pow2 s)
    min (s * pow2 52 + q) infCode

end Binary64

end Eikonal
