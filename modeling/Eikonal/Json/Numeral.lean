import Eikonal.Binary64.Decimal
import Eikonal.Json.Digit

/-! Numerals in texts: whole numbers, and binary64 numbers with a point and an exponent. Digits of
any script count, single underscores may stand between digits, and blanks around the numeral. -/

namespace Eikonal.Text

/-- The blanks that may stand around a numeral. -/
def isNumeralBlank (n : Nat) : Bool :=
  (0x09 ≤ n && n ≤ 0x0D) || n = 0x20 || n = 0x85 || n = 0xA0 || n = 0x1680 ||
    (0x2000 ≤ n && n ≤ 0x200A) || n = 0x2028 || n = 0x2029 || n = 0x202F || n = 0x205F || n = 0x3000

/-- The code points of a text without the blanks around it. -/
def trimmed (t : Text) : List Nat :=
  ((t.codePoints.dropWhile isNumeralBlank).reverse.dropWhile isNumeralBlank).reverse

/-- The values of the digits at the front, in which single underscores may stand between digits,
and what follows them. -/
def digitRun : List Nat → List Nat × List Nat
  | [] => ([], [])
  | c :: 0x5F :: e :: rest =>
    match digitValue? c with
    | none => ([], c :: 0x5F :: e :: rest)
    | some d =>
      if (digitValue? e).isSome then
        let (ds, after) := digitRun (e :: rest)
        (d :: ds, after)
      else ([d], 0x5F :: e :: rest)
  | c :: rest =>
    match digitValue? c with
    | none => ([], c :: rest)
    | some d =>
      let (ds, after) := digitRun rest
      (d :: ds, after)

/-- The number that digits stand for. -/
def valueOfDigits (ds : List Nat) : Nat := ds.foldl (fun n d => n * 10 + d) 0

/-- An optional minus or plus, which tells whether a number is negative, and what follows it. -/
def signed (cs : List Nat) : Bool × List Nat :=
  match cs with
  | 0x2D :: rest => (true, rest)
  | 0x2B :: rest => (false, rest)
  | rest => (false, rest)

/-- The whole number that a numeral without a sign stands for, unless it has too many digits. -/
def unsigned? (cs : List Nat) : Option Int :=
  match digitRun cs with
  | (d :: ds, []) =>
    if ds.length < maxDigits then some (valueOfDigits (d :: ds) : Nat) else none
  | _ => none

/-- The whole number that a numeral with an optional sign stands for. -/
def toInt? (t : Text) : Option Int :=
  let (negative, cs) := signed t.trimmed
  (unsigned? cs).map fun n => if negative then -n else n

/-- The exponent that a text consists of; none at all is zero. -/
def exponentPart? : List Nat → Option Int
  | [] => some 0
  | c :: rest =>
    if c = 0x65 || c = 0x45 then
      let (negative, rest) := signed rest
      match digitRun rest with
      | (d :: ds, []) =>
        let e : Int := valueOfDigits (d :: ds)
        some (if negative then -e else e)
      | _ => none
    else none

/-- The number that digits with an optional point and exponent stand for. -/
def unsignedReal? (negative : Bool) (cs : List Nat) : Option Binary64 :=
  let (whole, rest) := digitRun cs
  let (places, rest) :=
    match rest with
    | 0x2E :: rest => digitRun rest
    | rest => ([], rest)
  if whole.isEmpty && places.isEmpty then none
  else do
    let e ← exponentPart? rest
    return Binary64.ofDecimal negative (valueOfDigits (whole ++ places)) (e - places.length)

/-- A letter of the Latin alphabet in lower case, any other code point as it is. -/
def lowerLatin (c : Nat) : Nat := if 0x41 ≤ c && c ≤ 0x5A then c + 0x20 else c

/-- The binary64 number that a text stands for: a decimal number, an infinity or a NaN, with an
optional sign and blanks around it. -/
def toReal? (t : Text) : Option Binary64 :=
  let (negative, cs) := signed t.trimmed
  let word := cs.map lowerLatin
  let isWord (s : String) : Bool := word == s.toList.map Char.toNat
  if isWord "inf" || isWord "infinity" then some (Binary64.ofCode negative Binary64.infCode)
  else if isWord "nan" then some ⟨0x7FF8000000000000⟩
  else unsignedReal? negative cs

end Eikonal.Text
