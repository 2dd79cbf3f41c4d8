import Eikonal.Json.Printer

/-! The values that have a text. A value is written unless a whole number in it has too many digits
or its arrays and objects are nested too deep. -/

namespace Eikonal.Json

mutual

/-- Whether a whole number of more than 4300 digits is part of the value. -/
def hasLongInteger : Json → Bool
  | .int n => pow10 Text.maxDigits ≤ n.natAbs
  | .array l => anyLongInteger l
  | .object l => anyLongIntegerIn l
  | _ => false

def anyLongInteger : List Json → Bool
  | [] => false
  | v :: rest => hasLongInteger v || anyLongInteger rest

def anyLongIntegerIn : List (Text × Json) → Bool
  | [] => false
  | (_, v) :: rest => hasLongInteger v || anyLongIntegerIn rest

end

mutual

/-- The greatest number of arrays and objects that stand one inside the other in a value. -/
def nesting : Json → Nat
  | .array l => nestingOf l + 1
  | .object l => nestingIn l + 1
  | _ => 0

def nestingOf : List Json → Nat
  | [] => 0
  | v :: rest => max (nesting v) (nestingOf rest)

def nestingIn : List (Text × Json) → Nat
  | [] => 0
  | (_, v) :: rest => max (nesting v) (nestingIn rest)

end

mutual

/-- A value has a fault unless its whole numbers are short and its nesting is within the depth. -/
theorem fault?_eq_none_iff (v : Json) (depth : Nat) :
    v.fault? depth = none ↔ v.hasLongInteger = false ∧ v.nesting ≤ depth := by
  cases v with
  | int n =>
    simp [fault?, hasLongInteger, nesting]
  | array l =>
    rw [fault?, hasLongInteger, nesting]
    by_cases hdepth : depth = 0
    · simp [hdepth]
    · rw [if_neg hdepth, faultOf?_eq_none_iff l, Nat.le_sub_one_iff_lt (Nat.pos_of_ne_zero hdepth),
        Nat.succ_le_iff]
  | object l =>
    rw [fault?, hasLongInteger, nesting]
    by_cases hdepth : depth = 0
    · simp [hdepth]
    · rw [if_neg hdepth, faultIn?_eq_none_iff l, Nat.le_sub_one_iff_lt (Nat.pos_of_ne_zero hdepth),
        Nat.succ_le_iff]
  | null | bool | float | string => simp [fault?, hasLongInteger, nesting]

theorem faultOf?_eq_none_iff (l : List Json) (depth : Nat) :
    faultOf? depth l = none ↔ anyLongInteger l = false ∧ nestingOf l ≤ depth := by
  match l with
  | [] => simp [faultOf?, anyLongInteger, nestingOf]
  | v :: l =>
    rw [faultOf?, anyLongInteger, nestingOf, Option.or_eq_none_iff, fault?_eq_none_iff v,
      faultOf?_eq_none_iff l, Bool.or_eq_false_iff, Nat.max_le, and_and_and_comm]

theorem faultIn?_eq_none_iff (l : List (Text × Json)) (depth : Nat) :
    faultIn? depth l = none ↔ anyLongIntegerIn l = false ∧ nestingIn l ≤ depth := by
  match l with
  | [] => simp [faultIn?, anyLongIntegerIn, nestingIn]
  | (k, v) :: l =>
    rw [faultIn?, anyLongIntegerIn, nestingIn, Option.or_eq_none_iff, fault?_eq_none_iff v,
      faultIn?_eq_none_iff l, Bool.or_eq_false_iff, Nat.max_le, and_and_and_comm]

end

variable {v : Json} {depth : Nat}

end Eikonal.Json
