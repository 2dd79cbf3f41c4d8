/-! Rectangular arrays of any number of axes, and the nested lists that they come from. -/

namespace Eikonal

inductive ArrayError where
  /-- The items of a nested list differ in shape, or it is nested too deeply. -/
  | ragged
  /-- The sizes of two arrays do not fit together. -/
  | mismatch
  /-- The array lacks the axis that the operation runs along. -/
  | noAxis
  | negativeSize
  | outOfRange
  /-- The square of a finite number is not finite, or a count does not fit in a signed 64-bit
  word. -/
  | overflow
  | tooLarge
  | noMemory
deriving DecidableEq, Repr

/-- The bytes of an array are counted in signed 64-bit words, so there are fewer of them. -/
def Memory.addressRange : Nat := Nat.pow 2 63

/-- The memory of a machine: the most bytes that an array gets, one word of it at least. -/
structure Memory where
  bytes : Nat
  word_le : 8 ≤ bytes := by decide
  bytes_lt : bytes < Memory.addressRange := by decide

/-- A list nested to any depth. -/
inductive Nested (α : Type) where
  | leaf (a : α)
  | node (items : List (Nested α))

/-- An array: its shape, and its items with the last index running fastest. -/
structure NdArray (α : Type) where
  shape : List Nat
  items : Array α
deriving Repr

namespace Nested

variable {α : Type}

instance : Inhabited (Nested α) := ⟨node []⟩

/-- A list that is not nested any further. -/
def ofList (l : List α) : Nested α := node (l.map leaf)

mutual

/-- The shape of a nested list whose items all have the same shape. -/
def shape? : Nested α → Option (List Nat)
  | leaf _ => some []
  | node l => (commonShape? l).map (l.length :: ·)

/-- The shape that all the items have. -/
def commonShape? : List (Nested α) → Option (List Nat)
  | [] => some []
  | [x] => shape? x
  | x :: rest => if shape? x = commonShape? rest then shape? x else none

end

mutual

/-- The leaves from left to right. -/
def leaves : Nested α → List α
  | leaf a => [a]
  | node l => leavesOfAll l

def leavesOfAll : List (Nested α) → List α
  | [] => []
  | x :: rest => leaves x ++ leavesOfAll rest

end

/-- The most axes that an array may have. -/
def maxAxes : Nat := 64

/-- The nested list as an array, if it is rectangular and not nested too deeply. -/
def toArray (x : Nested α) : Except ArrayError (NdArray α) :=
  match x.shape? with
  | some shape =>
    if shape.length ≤ maxAxes then .ok { shape, items := x.leaves.toArray } else .error .ragged
  | none => .error .ragged

end Nested

namespace NdArray

variable {α β : Type}

/-- Checks that an array with the given sizes and `width` bytes for each item can be held. The sizes
other than zero must fit in the address range even if one of zero leaves nothing to hold. -/
def checkSizes (memory : Memory) (width : Nat) (sizes : List Int) : Except ArrayError Unit :=
  let bytes (l : List Int) : Nat := l.foldl (fun b n => b * n.toNat) width
  if sizes.any (· < 0) then .error .negativeSize
  else if Memory.addressRange ≤ bytes (sizes.filter (· != 0)) then .error .tooLarge
  else if memory.bytes < bytes sizes then .error .noMemory
  else .ok ()

def scalar (a : α) : NdArray α := { shape := [], items := #[a] }

def ofList (l : List α) : NdArray α := { shape := [l.length], items := l.toArray }

def map (f : α → β) (a : NdArray α) : NdArray β := { shape := a.shape, items := a.items.map f }

/-- The items in consecutive groups of `width`. -/
def groups (width : Nat) (a : NdArray α) : Array (Array α) :=
  ((List.range (a.items.size / width)).map fun i =>
    a.items.extract (i * width) (i * width + width)).toArray

/-- The nested list of an array. -/
def toNested (a : NdArray α) : Nested α := go a.shape a.items.toList
where
  go : List Nat → List α → Nested α
    | [], l => match l with
      | x :: _ => .leaf x
      | [] => .node []
    | n :: shape, l =>
      let step := shape.foldl (· * ·) 1
      .node ((List.range n).map fun i => go shape ((l.drop (i * step)).take step))

/-- One item for each of `n` places from an array without axes or with one: a single item serves
every place, else there must be one for each. -/
def spread (n : Nat) (a : NdArray α) : Except ArrayError (Array α) :=
  match a.shape, a.items[0]? with
  | [], some x => .ok (Array.replicate n x)
  | [1], some x => .ok (Array.replicate n x)
  | [m], _ => if m = n then .ok a.items else .error .mismatch
  | _, _ => .error .mismatch

/-- One item for each place of an `m` by `n` table, row by row: a missing axis or one of size one is
repeated. -/
def spreadTable (m n : Nat) (a : NdArray α) : Except ArrayError (Array α) :=
  let pick (rows columns : Nat) : Except ArrayError (Array α) :=
    if (rows = m || rows = 1) && (columns = n || columns = 1) then
      let item? (k : Nat) : Option α :=
        a.items[(if rows = 1 then 0 else k / n) * columns + (if columns = 1 then 0 else k % n)]?
      .ok ((List.range (m * n)).filterMap item?).toArray
    else .error .mismatch
  match a.shape with
  | [] => pick 1 1
  | [columns] => pick 1 columns
  | [rows, columns] => pick rows columns
  | _ => .error .mismatch

/-- An array whose last axis holds all the items, as an array of that axis alone. Any other array
stays as it is. -/
def dropOuterAxes (a : NdArray α) : NdArray α :=
  match a.shape.getLast? with
  | some n => if n = a.items.size then { a with shape := [n] } else a
  | none => a

/-- Combines two sequences item by item. One item alone meets every item of the other sequence. -/
def zipSpread {γ : Type} (f : α → β → γ) (a : Array α) (b : Array β) :
    Except ArrayError (Array γ) :=
  if a.size = b.size then .ok (Array.zipWith f a b)
  else if a.size = 1 then .ok (a.flatMap fun x => b.map fun y => f x y)
  else if b.size = 1 then .ok (b.flatMap fun y => a.map fun x => f x y)
  else .error .mismatch

end NdArray

/-- A shape as messages show it: `(3, 2, 2)`, `(4,)`, `()`. -/
def shapeText : List Int → String
  | [n] => s!"({n},)"
  | l => "(" ++ ", ".intercalate (l.map toString) ++ ")"

end Eikonal
