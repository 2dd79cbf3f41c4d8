import Std.Data.TreeSet

/-! The accepted front: accepted cells that still have a neighbour which is not accepted. Only they
can take part in an update, and a cell whose neighbours are all accepted leaves for good. -/

namespace Eikonal

/-- The place that an index means in a sequence of `n` items: one below zero counts from the end. -/
def place? (n : Nat) (i : Int) : Option Nat :=
  if 0 ≤ i then (if i.toNat < n then some i.toNat else none)
  else if 0 ≤ i + n then some (i + n).toNat
  else none

/-- A set of cells, in ascending order. -/
structure Front where
  cells : Std.TreeSet Int := ∅

namespace Front

def empty : Front := {}

instance : Inhabited Front := ⟨empty⟩

def contains (f : Front) (c : Int) : Bool := f.cells.contains c

def size (f : Front) : Nat := f.cells.size

def toList (f : Front) : List Int := f.cells.toList

def insert (f : Front) (c : Int) : Front := ⟨f.cells.insert c⟩

def erase (f : Front) (c : Int) : Front := ⟨f.cells.erase c⟩

/-- Drops the front cells among `cs` that are enclosed: all their neighbours are accepted. -/
def prune (enclosed : Int → Bool) (cs : List Int) (f : Front) : Front :=
  cs.foldl (fun f c => if f.contains c && enclosed c then f.erase c else f) f

/-- Whether the neighbours of `c` are all flagged, if the cell and all its neighbours exist. -/
def enclosed? (neighbours : Array (List Int)) (flags : Array Bool) (c : Int) : Option Bool := do
  let i ← place? neighbours.size c
  let l ← neighbours[i]?
  let fs ← l.mapM fun d => do flags[← place? flags.size d]?
  return fs.all id

/-- Prunes against a table of neighbours from outside, which may lack a cell. At the first front
cell that it cannot answer for, pruning stops, and the front left until then comes as the error. -/
def pruneTable (neighbours : Array (List Int)) (flags : Array Bool) (cs : List Int) (f : Front) :
    Except Front Front :=
  let known := cs.takeWhile fun c => !f.contains c || (enclosed? neighbours flags c).isSome
  let left := f.prune (fun c => (enclosed? neighbours flags c).getD false) known
  if known.length < cs.length then .error left else .ok left

end Front

end Eikonal
