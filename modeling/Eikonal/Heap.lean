import Std.Data.TreeMap
import Eikonal.Scalar.Basic

/-! A binary min-heap of cells with values, and beside it a table that tells the slot of every cell,
so that the value of a given cell can be lowered. Entries are ordered by value, and by cell where
two values are equal, so ties always fall the same way. -/

namespace Eikonal

structure Entry (κ α : Type) where
  value : α
  cell : κ
deriving DecidableEq, Repr

/-- Whether `a` comes strictly before `b`: by value, or by cell if the values are equal. -/
def Entry.before {κ α : Type} [Ord κ] [Scalar α] (a b : Entry κ α) : Bool :=
  if Scalar.eq a.value b.value then compare a.cell b.cell == .lt else Scalar.lt a.value b.value

inductive HeapError (κ α : Type) where
  | duplicate (cell : κ)
  | missing (cell : κ)
  | increase (cell : κ) (old new : α)
  | popEmpty
  | topEmpty
deriving DecidableEq, Repr

/-- The message of a heap error; `value` writes a value. -/
def HeapError.message {κ α : Type} [ToString κ] (value : α → String) : HeapError κ α → String
  | duplicate c => s!"Cell {c} is already in the heap"
  | missing c => toString c
  | increase c old new => s!"decrease_key would increase cell {c}: {value old} -> {value new}"
  | popEmpty => "pop from an empty heap"
  | topEmpty => "top from an empty heap"

/-- A heap whose entries can be found by cell. -/
structure IndexedHeap (κ α : Type) [Ord κ] where
  /-- The entries in heap order: no entry comes before its parent, the one at half its place. -/
  entries : Array (Entry κ α) := #[]
  slots : Std.TreeMap κ Nat := ∅

namespace IndexedHeap

variable {κ α : Type} [Ord κ] [Scalar α]

def empty : IndexedHeap κ α := {}

instance : Inhabited (IndexedHeap κ α) := ⟨empty⟩

def size (h : IndexedHeap κ α) : Nat := h.entries.size

def isEmpty (h : IndexedHeap κ α) : Bool := h.entries.isEmpty

def contains (h : IndexedHeap κ α) (c : κ) : Bool := h.slots.contains c

def slotCount (h : IndexedHeap κ α) : Nat := h.slots.size

/-- The value of a cell. -/
def key? (h : IndexedHeap κ α) (c : κ) : Option α := do
  let i ← h.slots[c]?
  let e ← h.entries[i]?
  return e.value

def key (h : IndexedHeap κ α) (c : κ) : Except (HeapError κ α) α :=
  match h.key? c with
  | some v => .ok v
  | none => .error (.missing c)

def swap (h : IndexedHeap κ α) (i j : Nat) : IndexedHeap κ α :=
  match h.entries[i]?, h.entries[j]? with
  | some a, some b =>
    { entries := (h.entries.setIfInBounds i b).setIfInBounds j a
      slots := (h.slots.insert b.cell i).insert a.cell j }
  | _, _ => h

omit [Scalar α] in
theorem size_swap (h : IndexedHeap κ α) (i j : Nat) :
    (h.swap i j).entries.size = h.entries.size := by
  unfold swap
  split <;> simp

/-- Whether the entry in slot `i` comes strictly before the one in slot `j`. -/
def precedes (h : IndexedHeap κ α) (i j : Nat) : Bool :=
  match h.entries[i]?, h.entries[j]? with
  | some a, some b => a.before b
  | _, _ => false

/-- Moves the entry in slot `i` up while it comes before its parent. -/
def siftUp (h : IndexedHeap κ α) (i : Nat) : IndexedHeap κ α :=
  if 0 < i then
    if h.precedes i ((i - 1) / 2) then siftUp (h.swap i ((i - 1) / 2)) ((i - 1) / 2) else h
  else h
termination_by i

theorem size_siftUp (h : IndexedHeap κ α) (i : Nat) :
    (h.siftUp i).entries.size = h.entries.size := by
  induction h, i using siftUp.induct with
  | case1 h i hi hp ih => rw [siftUp, if_pos hi, if_pos hp, ih, size_swap]
  | case2 h i hi hp => rw [siftUp, if_pos hi, if_neg hp]
  | case3 h i hi => rw [siftUp, if_neg hi]

/-- The child of slot `i` that comes first; the left one on a tie. -/
def firstChild (h : IndexedHeap κ α) (i : Nat) : Nat :=
  if 2 * i + 2 < h.entries.size && h.precedes (2 * i + 2) (2 * i + 1) then 2 * i + 2 else 2 * i + 1

theorem lt_firstChild (h : IndexedHeap κ α) (i : Nat) : i < h.firstChild i := by
  unfold firstChild
  split <;> omega

/-- Moves the entry in slot `i` down while a child comes before it. -/
def siftDown (h : IndexedHeap κ α) (i : Nat) : IndexedHeap κ α :=
  if 2 * i + 1 < h.entries.size then
    if h.precedes (h.firstChild i) i then siftDown (h.swap i (h.firstChild i)) (h.firstChild i)
    else h
  else h
termination_by h.entries.size - i
decreasing_by
  have := h.lt_firstChild i
  rw [size_swap]
  omega

theorem size_siftDown (h : IndexedHeap κ α) (i : Nat) :
    (h.siftDown i).entries.size = h.entries.size := by
  induction h, i using siftDown.induct with
  | case1 h i hi hp ih => rw [siftDown, if_pos hi, if_pos hp, ih, size_swap]
  | case2 h i hi hp => rw [siftDown, if_pos hi, if_neg hp]
  | case3 h i hi => rw [siftDown, if_neg hi]

/-- Adds a cell, which must be new. -/
def push (h : IndexedHeap κ α) (c : κ) (v : α) : Except (HeapError κ α) (IndexedHeap κ α) :=
  if h.contains c then .error (.duplicate c)
  else
    let n := h.entries.size
    .ok (siftUp { entries := h.entries.push ⟨v, c⟩, slots := h.slots.insert c n } n)

theorem size_push {h h' : IndexedHeap κ α} {c : κ} {v : α} (hp : h.push c v = .ok h') :
    h'.size = h.size + 1 := by
  unfold push at hp
  split at hp
  · cases hp
  · cases hp
    simp [size, size_siftUp]

def top (h : IndexedHeap κ α) : Except (HeapError κ α) (Entry κ α) :=
  match h.entries[0]? with
  | some e => .ok e
  | none => .error .topEmpty

/-- Takes the first entry out; its slot goes with it. -/
def pop (h : IndexedHeap κ α) : Except (HeapError κ α) (Entry κ α × IndexedHeap κ α) :=
  match h.entries[0]?, h.entries.back? with
  | some first, some last =>
    let entries := h.entries.pop
    let slots := h.slots.erase first.cell
    if entries.isEmpty then .ok (first, { entries, slots })
    else
      .ok (first, siftDown
        { entries := entries.setIfInBounds 0 last, slots := slots.insert last.cell 0 } 0)
  | _, _ => .error .popEmpty

theorem size_pop {h h' : IndexedHeap κ α} {e : Entry κ α} (hp : h.pop = .ok (e, h')) :
    h'.size + 1 = h.size := by
  unfold pop at hp
  split at hp
  · rename_i _ _ h0 _
    have hpos : 0 < h.entries.size := by
      obtain ⟨hlt, _⟩ := Array.getElem?_eq_some_iff.1 h0
      exact hlt
    dsimp only at hp
    split at hp
    · cases hp
      simp [size]
      omega
    · cases hp
      simp [size, size_siftDown]
      omega
  · cases hp

/-- Lowers the value of a cell. A value that is not above the old one, a NaN included, is taken. -/
def decreaseKey (h : IndexedHeap κ α) (c : κ) (v : α) :
    Except (HeapError κ α) (IndexedHeap κ α) :=
  match h.slots[c]? with
  | none => .error (.missing c)
  | some i =>
    match h.entries[i]? with
    | none => .error (.missing c)
    | some old =>
      if Scalar.lt old.value v then .error (.increase c old.value v)
      else .ok (siftUp { h with entries := h.entries.setIfInBounds i ⟨v, c⟩ } i)

theorem size_decreaseKey {h h' : IndexedHeap κ α} {c : κ} {v : α}
    (hp : h.decreaseKey c v = .ok h') : h'.size = h.size := by
  unfold decreaseKey at hp
  split at hp
  · cases hp
  · split at hp
    · cases hp
    · split at hp
      · cases hp
      · cases hp
        simp [size, size_siftUp]

end IndexedHeap

end Eikonal
