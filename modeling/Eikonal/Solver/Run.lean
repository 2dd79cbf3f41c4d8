import Eikonal.Heap
import Eikonal.Solver.Tentative

/-! One run of the ordered upwind method. A cell is far until it has an accepted neighbour,
considered while its value may still fall, and accepted once its value is final. Each step accepts
the considered cell with the least value, moves its far neighbours to the considered ones and
re-evaluates the neighbours that were considered before. -/

namespace Eikonal

inductive CellState where
  | far
  | considered
  | accepted
deriving DecidableEq, Repr

/-- How far a run has come. -/
structure Run (α : Type) where
  /-- The values: infinity for a far cell, tentative for a considered one, else final. -/
  solution : Array α
  state : Array CellState
  accepted : Array Bool
  front : Front := .empty
  considered : IndexedHeap Nat α := .empty
  /-- The accepted cells in the order of their acceptance. -/
  order : Array Nat := #[]
  /-- How many cells the main loop has accepted. -/
  iterations : Nat := 0
  /-- How many times the value of a considered cell has fallen. -/
  relaxations : Nat := 0

inductive StopCause (α : Type) where
  /-- A cell that no front cell reaches. -/
  | unreached (cell : Int)
  /-- More acceptances are needed than are allowed. -/
  | bound (allowed : Int) (left : Nat)
  | heap (why : HeapError Nat α)

def StopCause.message {α : Type} (value : α → String) : StopCause α → String
  | unreached c => s!"Cell {c} has no accepted front neighbour to update from"
  | bound n left =>
    s!"Ordered upwind loop exceeded {n} iterations with {left} cells still considered"
  | heap e => e.message value

/-- A run that stopped before its end, as it was left. -/
structure Stopped (α : Type) where
  cause : StopCause α
  run : Run α

namespace Run

variable {α : Type} [Scalar α]

/-- A run in which all `n` cells are far. -/
def fresh (n : Nat) : Run α :=
  { solution := Array.replicate n Scalar.inf
    state := Array.replicate n .far
    accepted := Array.replicate n false }

/-- Makes all cells far again. -/
def reset (r : Run α) : Run α :=
  { solution := r.solution.map fun _ => Scalar.inf
    state := r.state.map fun _ => .far
    accepted := r.accepted.map fun _ => false }

/-- The state of a cell. A cell that does not exist counts as accepted: nothing is left to do. -/
def stateOf (r : Run α) (c : Nat) : CellState := r.state.getD c .accepted

def isAccepted (r : Run α) (c : Nat) : Bool := r.accepted.getD c false

/-- Whether the neighbours of a cell are all accepted. -/
def isEnclosed (m : Medium α) (r : Run α) (c : Int) : Bool := (m.around c.toNat).all r.isAccepted

/-- Drops the enclosed cells among `cs` from the front. -/
def prune (m : Medium α) (cs : List Int) (r : Run α) : Run α :=
  { r with front := r.front.prune (r.isEnclosed m) cs }

/-- Gives a cell its final value and puts it on the front. -/
def settle (c : Nat) (v : α) (r : Run α) : Run α :=
  { r with
    solution := r.solution.setIfInBounds c v
    state := r.state.setIfInBounds c .accepted
    accepted := r.accepted.setIfInBounds c true
    front := r.front.insert c
    order := r.order.push c }

def consider (m : Medium α) (r : Run α) (c : Nat) : Except (Stopped α) (Run α) :=
  match m.tentative? r.front r.solution c with
  | none => .error ⟨.unreached c, r⟩
  | some v =>
    match r.considered.push c v with
    | .error e => .error ⟨.heap e, r⟩
    | .ok h =>
      .ok { r with
        considered := h
        state := r.state.setIfInBounds c .considered
        solution := r.solution.setIfInBounds c v }

/-- Moves the far cells among `cs` to the considered ones. -/
def considerFar (m : Medium α) (r : Run α) (cs : List Nat) : Except (Stopped α) (Run α) :=
  cs.foldlM (fun r c => if r.stateOf c = .far then r.consider m c else .ok r) r

/-- Evaluates a considered cell again and keeps the lesser value. -/
def relax (m : Medium α) (r : Run α) (c : Nat) : Except (Stopped α) (Run α) :=
  match m.tentative? r.front r.solution c with
  | none => .error ⟨.unreached c, r⟩
  | some v =>
    match r.considered.key c with
    | .error e => .error ⟨.heap e, r⟩
    | .ok old =>
      if Scalar.lt v old then
        match r.considered.decreaseKey c v with
        | .error e => .error ⟨.heap e, r⟩
        | .ok h =>
          .ok { r with
            considered := h
            solution := r.solution.setIfInBounds c v
            relaxations := r.relaxations + 1 }
      else .ok r

/-- Accepts an entry taken out of the considered cells, which are `h` from now on. -/
def accept (m : Medium α) (r : Run α) (e : Entry Nat α) (h : IndexedHeap Nat α) : Run α :=
  prune m ((e.cell :: m.around e.cell).map Int.ofNat)
    (settle e.cell e.value { r with considered := h, iterations := r.iterations + 1 })

def relaxAll (m : Medium α) (r : Run α) (cs : List Nat) : Except (Stopped α) (Run α) :=
  cs.foldlM (relax m) r

/-- What follows the acceptance of a cell: its far neighbours become considered, and those that
were considered before are relaxed. -/
def spread (m : Medium α) (r : Run α) (c : Nat) : Except (Stopped α) (Run α) :=
  (r.considerFar m (m.around c)).bind fun r' =>
    r'.relaxAll m ((m.around c).filter fun d => r.stateOf d = .considered)

/-- Accepts the considered cell with the least value. -/
def step (m : Medium α) (r : Run α) : Except (Stopped α) (Run α) :=
  match r.considered.pop with
  | .error e => .error ⟨.heap e, r⟩
  | .ok (e, h) => (r.accept m e h).spread m e.cell

/-- Accepts the start cells with value zero and makes their neighbours considered. -/
def seed (m : Medium α) (starts : List Nat) (r : Run α) : Except (Stopped α) (Run α) :=
  let seeded := starts.foldl (fun r c => r.settle c Scalar.zero) r
  (seeded.prune m seeded.front.toList).considerFar m (starts.flatMap m.around)

end Run

end Eikonal
