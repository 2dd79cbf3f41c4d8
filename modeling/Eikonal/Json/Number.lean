import Eikonal.Json.Basic
import Eikonal.Json.Numeral

/-! Whole numbers from JSON values. A binary64 number loses its fraction, a truth value counts as
one or zero, and a string is read as a decimal numeral. -/

namespace Eikonal

inductive NumberError where
  /-- Nothing that could be a number: null, an array or an object. -/
  | notNumeric
  /-- A NaN, or a text that is no numeral. -/
  | unreadable
  /-- An infinity, or a number too large for a cell id. -/
  | unbounded
deriving DecidableEq, Repr

/-- A finite binary64 number without its fraction. -/
def Binary64.truncate (x : Binary64) : Int :=
  let r := ratio x.code
  let n : Int := r.1 / r.2
  if x.negative then -n else n

/-- Whether a whole number fits in a signed 64-bit word. -/
def fitsWord (n : Int) : Bool := -(pow2 63 : Int) ≤ n && n < (pow2 63 : Int)

/-- A binary64 number without its fraction as a signed 64-bit word. A number that does not fit, or
that is none, becomes the least word. -/
def Binary64.truncateToWord (x : Binary64) : Int :=
  if x.isFinite && fitsWord x.truncate then x.truncate else -(pow2 63 : Int)

namespace Json

/-- The whole number that a value stands for. -/
def toInt : Json → Except NumberError Int
  | .int n => .ok n
  | .bool b => .ok (if b then 1 else 0)
  | .float x =>
    if x.isNaN then .error .unreadable
    else if x.isInf then .error .unbounded
    else .ok x.truncate
  | .string s =>
    match s.toInt? with
    | some n => .ok n
    | none => .error .unreadable
  | _ => .error .notNumeric

/-- The cell id that a value stands for, which fits in a signed 64-bit word. -/
def toId (v : Json) : Except NumberError Int :=
  match v.toInt with
  | .error e => .error e
  | .ok n => if fitsWord n then .ok n else .error .unbounded

/-- The things that a value consists of, if it consists of things: the items of an array, the
characters of a string, the keys of an object. -/
def parts? : Json → Option (List Json)
  | .array l => some l
  | .string s => some (characters s)
  | .object l => some (l.map fun f => .string f.1)
  | _ => none
where
  /-- Every character of the text as a text of its own, a surrogate pair being one character. -/
  characters : Text → List Json
    | [] => []
    | [a] => [.string [a]]
    | a :: b :: rest =>
      if 0xD800 ≤ a && a < 0xDC00 && 0xDC00 ≤ b && b < 0xE000 then
        .string [a, b] :: characters rest
      else .string [a] :: characters (b :: rest)

end Json

end Eikonal
