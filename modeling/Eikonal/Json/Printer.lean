import Eikonal.Binary64.Text
import Eikonal.Json.Basic
import Eikonal.Json.Digit

/-! Writing JSON text: a comma and a colon are followed by a blank, and every unit that is not a
printable character of ASCII is written as an escape. -/

namespace Eikonal.Json

/-- The spelling of the numbers that the standard grammar lacks. -/
def spelling : Binary64.Spelling := ⟨"NaN", "Infinity"⟩

/-- One unit of a string. -/
def quoteUnit (u : UInt16) : Text :=
  if u = 0x22 then [0x5C, 0x22]
  else if u = 0x5C then [0x5C, 0x5C]
  else if u = 0x08 then [0x5C, 0x62]
  else if u = 0x0C then [0x5C, 0x66]
  else if u = 0x0A then [0x5C, 0x6E]
  else if u = 0x0D then [0x5C, 0x72]
  else if u = 0x09 then [0x5C, 0x74]
  else if u < 0x20 || 0x7E < u then [0x5C, 0x75] ++ Text.hex 4 u.toNat
  else [u]

def quote (s : Text) : Text := 0x22 :: s.flatMap quoteUnit ++ [0x22]

mutual

def print : Json → Text
  | .null => Text.ofString "null"
  | .bool true => Text.ofString "true"
  | .bool false => Text.ofString "false"
  | .int n => Text.ofString (toString n)
  | .float x => Text.ofString (x.text spelling)
  | .string s => quote s
  | .array l => 0x5B :: printItems l ++ [0x5D]
  | .object l => 0x7B :: printFields l ++ [0x7D]

def printItems : List Json → Text
  | [] => []
  | [v] => print v
  | v :: rest => print v ++ 0x2C :: 0x20 :: printItems rest

def printFields : List (Text × Json) → Text
  | [] => []
  | [(k, v)] => quote k ++ 0x3A :: 0x20 :: print v
  | (k, v) :: rest => quote k ++ 0x3A :: 0x20 :: print v ++ 0x2C :: 0x20 :: printFields rest

end

inductive WriteError where
  /-- A whole number of more than 4300 digits. -/
  | longInteger
  /-- Arrays and objects nested deeper than the writer can follow. -/
  | tooDeep
deriving DecidableEq, Repr

mutual

/-- The first thing in a value that no text is written for. At most `depth` arrays and objects may
stand one inside the other. -/
def fault? (depth : Nat) : Json → Option WriteError
  | .int n => if pow10 Text.maxDigits ≤ n.natAbs then some .longInteger else none
  | .array l => if depth = 0 then some .tooDeep else faultOf? (depth - 1) l
  | .object l => if depth = 0 then some .tooDeep else faultIn? (depth - 1) l
  | _ => none

def faultOf? (depth : Nat) : List Json → Option WriteError
  | [] => none
  | v :: rest => (fault? depth v).or (faultOf? depth rest)

def faultIn? (depth : Nat) : List (Text × Json) → Option WriteError
  | [] => none
  | (_, v) :: rest => (fault? depth v).or (faultIn? depth rest)

end

/-- Writes the text of a value. -/
def write (depth : Nat) (v : Json) : Except WriteError Text :=
  match v.fault? depth with
  | some e => .error e
  | none => .ok v.print

end Eikonal.Json
