import Eikonal.Json.Display
import Eikonal.Json.Number

/-! Start cells. They are given as a value from outside, and every part of it has to be the id of a
cell. Truth values count as zero and one. -/

namespace Eikonal

inductive StartError where
  /-- The value has no parts. -/
  | notIterable
  | notInteger (part : Json)
  | outOfRange (part : Json) (cells : Nat)

def StartError.message? : StartError → Option String
  | notIterable => none
  | notInteger v => some s!"Start cell {v.display} is not an integer cell id"
  | outOfRange v n => some s!"Start cell {v.display} is out of range [0, {n})"

/-- The whole number that a part stands for; a fraction or a text stands for none. -/
def Json.wholeNumber? : Json → Option Int
  | .int n => some n
  | .bool b => some (if b then 1 else 0)
  | _ => none

/-- The start cell that a part names, one of `n` cells. -/
def startCell (n : Nat) (v : Json) : Except StartError Nat :=
  match v.wholeNumber? with
  | none => .error (.notInteger v)
  | some c => if 0 ≤ c && c < n then .ok c.toNat else .error (.outOfRange v n)

/-- A list of cells, ascending and without repetitions, all below `n`. -/
def ascending (n : Nat) (cs : List Nat) : List Nat := (List.range n).filter cs.contains

/-- The start cells that a value names, ascending and without repetitions. The first part that
names none of `n` cells is the error. -/
def startCells (n : Nat) (v : Json) : Except StartError (List Nat) :=
  match v.parts? with
  | none => .error .notIterable
  | some parts => (parts.mapM (startCell n)).map (ascending n)

end Eikonal
