/-! Text as UTF-16 code units. A JSON string may name any unit, a surrogate that stands alone
included, so its text is a list of units and not a list of characters. -/

namespace Eikonal

/-- Text as UTF-16 code units. -/
abbrev Text := List UInt16

namespace Text

/-- The units of one character: one, or a surrogate pair above U+FFFF. -/
def ofChar (c : Char) : Text :=
  let n := c.toNat
  if n < 0x10000 then [UInt16.ofNat n]
  else
    let m := n - 0x10000
    [UInt16.ofNat (0xD800 + m / 0x400), UInt16.ofNat (0xDC00 + m % 0x400)]

def ofString (s : String) : Text := s.toList.flatMap ofChar

/-- The code points of the text: a high surrogate and a low one after it are one code point, any
other unit stands for itself. -/
def codePoints : Text → List Nat
  | [] => []
  | [a] => [a.toNat]
  | a :: b :: rest =>
    if 0xD800 ≤ a && a < 0xDC00 && 0xDC00 ≤ b && b < 0xE000 then
      (0x10000 + (a.toNat - 0xD800) * 0x400 + (b.toNat - 0xDC00)) :: codePoints rest
    else a.toNat :: codePoints (b :: rest)

/-- The characters of the text. A surrogate that stands alone becomes the replacement character. -/
def toString (t : Text) : String :=
  String.ofList (t.codePoints.map fun n =>
    if 0xD800 ≤ n && n < 0xE000 then Char.ofNat 0xFFFD else Char.ofNat n)

/-- The parts of a text between its line feeds, one more than there are line feeds. -/
def lines : Text → List Text
  | [] => [[]]
  | u :: rest =>
    if u = 0x0A then [] :: lines rest
    else
      match lines rest with
      | [] => [[u]]
      | l :: more => (u :: l) :: more

/-- A hexadecimal digit, in lower case. -/
def hexDigit (n : Nat) : UInt16 := UInt16.ofNat (if n < 10 then 0x30 + n else 0x57 + n)

/-- The last `width` hexadecimal digits of `n`. -/
def hex (width n : Nat) : Text :=
  (List.range width).reverse.map fun i => hexDigit (n / Nat.pow 16 i % 16)

/-- The value of a hexadecimal digit in either case. -/
def hexValue? (u : UInt16) : Option Nat :=
  let n := u.toNat
  if 0x30 ≤ n && n ≤ 0x39 then some (n - 0x30)
  else if 0x61 ≤ n && n ≤ 0x66 then some (n - 0x57)
  else if 0x41 ≤ n && n ≤ 0x46 then some (n - 0x37)
  else none

def isDigit (u : UInt16) : Bool := 0x30 ≤ u && u ≤ 0x39

/-- The value of a run of decimal digits. -/
def digitsValue (ds : Text) : Nat := ds.foldl (fun n u => n * 10 + (u.toNat - 0x30)) 0

end Text

end Eikonal
