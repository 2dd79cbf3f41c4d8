import Eikonal.Binary64.Text
import Eikonal.Json.Basic
import Eikonal.Json.Printable

/-! JSON values as messages show them. Text stands in single quotes, or in double quotes if only
single ones occur in it, and what is not printable is escaped. -/

namespace Eikonal

namespace Text

/-- The characters of an escape: the letter and the hexadecimal digits of the code point. -/
def escape (letter : Char) (width n : Nat) : List Char :=
  '\\' :: letter :: (hex width n).map fun u => Char.ofNat u.toNat

/-- A code point inside a text that stands between the given quotes. -/
def displayPoint (quote : Char) (n : Nat) : List Char :=
  if n = 0x5C || n = quote.toNat then ['\\', Char.ofNat n]
  else if n = 0x0A then ['\\', 'n']
  else if n = 0x0D then ['\\', 'r']
  else if n = 0x09 then ['\\', 't']
  else if isPrintable n then [Char.ofNat n]
  else if n < 0x100 then escape 'x' 2 n
  else if n < 0x10000 then escape 'u' 4 n
  else escape 'U' 8 n

/-- The text in quotes. -/
def display (t : Text) : String :=
  let quote := if t.contains 0x27 && !t.contains 0x22 then '"' else '\''
  String.ofList (quote :: t.codePoints.flatMap (displayPoint quote) ++ [quote])

end Text

namespace Json

mutual

/-- The value as a message shows it. -/
def display : Json → String
  | null => "None"
  | bool b => if b then "True" else "False"
  | int n => toString n
  | float x => x.text .lower
  | string s => Text.display s
  | array l => "[" ++ ", ".intercalate (displayItems l) ++ "]"
  | object l => "\x7b" ++ ", ".intercalate (displayFields l) ++ "\x7d"

def displayItems : List Json → List String
  | [] => []
  | v :: rest => display v :: displayItems rest

def displayFields : List (Text × Json) → List String
  | [] => []
  | (k, v) :: rest => (Text.display k ++ ": " ++ display v) :: displayFields rest

end

end Json

end Eikonal
