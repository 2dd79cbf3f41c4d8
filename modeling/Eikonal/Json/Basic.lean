import Eikonal.Binary64.Basic
import Eikonal.Json.Text

/-! JSON values. Whole numbers are kept exactly and apart from binary64 numbers, and the fields of
an object keep the order in which their keys first appeared. -/

namespace Eikonal

inductive Json where
  | null
  | bool (b : Bool)
  | int (n : Int)
  | float (x : Binary64)
  | string (s : Text)
  | array (items : List Json)
  | object (fields : List (Text × Json))

namespace Json

/-- How many arrays and objects may stand one inside the other in a value that is written and in one
that is read. -/
structure Limits where
  write : Nat
  read : Nat

instance : Inhabited Json := ⟨null⟩

/-- The fields with `key` set to `v`: in its old place if the key is there, else at the end. -/
def setField (key : Text) (v : Json) : List (Text × Json) → List (Text × Json)
  | [] => [(key, v)]
  | (k, w) :: rest => if k = key then (k, v) :: rest else (k, w) :: setField key v rest

/-- The value of the field `key` of an object. -/
def field? (key : String) : Json → Option Json
  | object fields => fields.lookup (Text.ofString key)
  | _ => none

end Json

end Eikonal
