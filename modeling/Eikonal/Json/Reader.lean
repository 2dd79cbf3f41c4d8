import Eikonal.Binary64.Decimal
import Eikonal.Json.Basic
import Eikonal.Json.Digit

/-! Reading JSON text. Besides the standard grammar, `NaN`, `Infinity` and `-Infinity` are numbers.
A number with a fraction or an exponent is rounded to binary64, any other is a whole number. -/

namespace Eikonal.Json

inductive ReadError where
  | malformed
  /-- A whole number of more than 4300 digits. -/
  | longInteger
  /-- Arrays and objects nested deeper than the reader can follow. -/
  | tooDeep
deriving DecidableEq, Repr

/-- A reader takes what it reads off the front of the text. -/
abbrev Reader (α : Type) := Text → Except ReadError (α × Text)

def isBlank (u : UInt16) : Bool := u = 0x20 || u = 0x09 || u = 0x0A || u = 0x0D

def skipBlanks (t : Text) : Text := t.dropWhile isBlank

/-- The text after `word`, if it starts with it. -/
def after? (word : String) (t : Text) : Option Text :=
  let w := Text.ofString word
  if w.isPrefixOf t then some (t.drop w.length) else none

/-- The unit that a backslash and the unit `u` stand for. -/
def escaped? (u : UInt16) : Option UInt16 :=
  if u = 0x22 || u = 0x5C || u = 0x2F then some u
  else if u = 0x62 then some 0x08
  else if u = 0x66 then some 0x0C
  else if u = 0x6E then some 0x0A
  else if u = 0x72 then some 0x0D
  else if u = 0x74 then some 0x09
  else none

/-- The unit that four hexadecimal digits stand for. -/
def hexUnit? (a b c d : UInt16) : Option UInt16 := do
  let a ← Text.hexValue? a
  let b ← Text.hexValue? b
  let c ← Text.hexValue? c
  let d ← Text.hexValue? d
  return UInt16.ofNat (((a * 16 + b) * 16 + c) * 16 + d)

/-- The rest of a string after its opening quote. Control characters must be escaped. -/
def stringBody : Reader Text
  | [] => .error .malformed
  | 0x22 :: rest => .ok ([], rest)
  | 0x5C :: 0x75 :: a :: b :: c :: d :: rest =>
    match hexUnit? a b c d with
    | none => .error .malformed
    | some u => (stringBody rest).map fun (s, r) => (u :: s, r)
  | 0x5C :: u :: rest =>
    match escaped? u with
    | none => .error .malformed
    | some v => (stringBody rest).map fun (s, r) => (v :: s, r)
  | u :: rest =>
    if u < 0x20 || u = 0x5C then .error .malformed
    else (stringBody rest).map fun (s, r) => (u :: s, r)

/-- A point and the digits after it, if both are there. -/
def fraction? : Text → Option (Text × Text)
  | 0x2E :: rest =>
    let ds := rest.takeWhile Text.isDigit
    if ds.isEmpty then none else some (ds, rest.dropWhile Text.isDigit)
  | _ => none

/-- The mark of an exponent, its sign and its digits, if they are all there. -/
def exponent? : Text → Option (Int × Text)
  | u :: rest =>
    if u = 0x65 || u = 0x45 then
      let negative := rest.head? == some 0x2D
      let rest := if negative || rest.head? == some 0x2B then rest.drop 1 else rest
      let ds := rest.takeWhile Text.isDigit
      if ds.isEmpty then none
      else
        let e : Int := Text.digitsValue ds
        some (if negative then -e else e, rest.dropWhile Text.isDigit)
    else none
  | [] => none

/-- The digits before the point: a lone zero, or digits that do not start with one. -/
def wholeDigits? (t : Text) : Option (Text × Text) :=
  match t with
  | 0x30 :: rest => some ([0x30], rest)
  | _ =>
    let ds := t.takeWhile Text.isDigit
    if ds.isEmpty then none else some (ds, t.dropWhile Text.isDigit)

/-- A number without its sign. -/
def unsigned (negative : Bool) : Reader Json := fun t =>
  match wholeDigits? t with
  | none => .error .malformed
  | some (whole, rest) =>
    let frac := fraction? rest
    let rest := (frac.map (·.2)).getD rest
    let expo := exponent? rest
    let rest := (expo.map (·.2)).getD rest
    if frac.isNone && expo.isNone then
      if Text.maxDigits < whole.length then .error .longInteger
      else
        let n : Int := Text.digitsValue whole
        .ok (.int (if negative then -n else n), rest)
    else
      let places := (frac.map (·.1)).getD []
      let e := (expo.map (·.1)).getD 0 - places.length
      .ok (.float (Binary64.ofDecimal negative (Text.digitsValue (whole ++ places)) e), rest)

/-- A word or a number. -/
def scalar : Reader Json := fun t =>
  if let some rest := after? "null" t then .ok (.null, rest)
  else if let some rest := after? "true" t then .ok (.bool true, rest)
  else if let some rest := after? "false" t then .ok (.bool false, rest)
  else if let some rest := after? "NaN" t then .ok (.float ⟨0x7FF8000000000000⟩, rest)
  else if let some rest := after? "Infinity" t then
    .ok (.float (Binary64.ofCode false Binary64.infCode), rest)
  else if let some rest := after? "-Infinity" t then
    .ok (.float (Binary64.ofCode true Binary64.infCode), rest)
  else match t with
    | 0x2D :: rest => unsigned true rest
    | _ => unsigned false t

mutual

/-- A value that starts at the first unit. The fuel bounds the depth of the calls, and `depth` the
number of arrays and objects that are open at once. -/
def value : (fuel depth : Nat) → Reader Json
  | 0, _, _ => .error .malformed
  | fuel + 1, depth, t =>
    match t with
    | 0x22 :: rest => (stringBody rest).map fun (s, r) => (.string s, r)
    | 0x5B :: rest =>
      if depth = 0 then .error .tooDeep
      else
        match skipBlanks rest with
        | 0x5D :: r => .ok (.array [], r)
        | r => (items fuel (depth - 1) r).map fun (l, r) => (.array l, r)
    | 0x7B :: rest =>
      if depth = 0 then .error .tooDeep
      else
        match skipBlanks rest with
        | 0x7D :: r => .ok (.object [], r)
        | r => (fields fuel (depth - 1) [] r).map fun (l, r) => (.object l, r)
    | _ => scalar t

/-- The items of an array and its closing bracket. -/
def items : (fuel depth : Nat) → Reader (List Json)
  | 0, _, _ => .error .malformed
  | fuel + 1, depth, t =>
    match value fuel depth t with
    | .error e => .error e
    | .ok (v, rest) =>
      match skipBlanks rest with
      | 0x5D :: r => .ok ([v], r)
      | 0x2C :: r => (items fuel depth (skipBlanks r)).map fun (l, r) => (v :: l, r)
      | _ => .error .malformed

/-- The fields of an object and its closing brace, added to the fields before them. -/
def fields : (fuel depth : Nat) → List (Text × Json) → Reader (List (Text × Json))
  | 0, _, _, _ => .error .malformed
  | fuel + 1, depth, before, t =>
    match t with
    | 0x22 :: rest =>
      match stringBody rest with
      | .error e => .error e
      | .ok (key, rest) =>
        match skipBlanks rest with
        | 0x3A :: r =>
          match value fuel depth (skipBlanks r) with
          | .error e => .error e
          | .ok (v, rest) =>
            match skipBlanks rest with
            | 0x7D :: r => .ok (setField key v before, r)
            | 0x2C :: r => fields fuel depth (setField key v before) (skipBlanks r)
            | _ => .error .malformed
        | _ => .error .malformed
    | _ => .error .malformed

end

/-- Reads a whole document: one value, with blanks around it. Every call but the first of a list of
items takes a unit off the text, so twice its length bounds the depth of the calls. -/
def read (depth : Nat) (t : Text) : Except ReadError Json :=
  match value (2 * t.length + 2) depth (skipBlanks t) with
  | .error e => .error e
  | .ok (v, rest) => if (skipBlanks rest).isEmpty then .ok v else .error .malformed

end Eikonal.Json
