import Eikonal.FastMarching.Update
import Eikonal.Heap
import Eikonal.NdArray

/-! Fast marching on a rectangular array of nodes, numbered row by row. A node becomes known with
the least value in the queue. A value that falls is queued once more, and the older entry is skipped
when its turn comes. -/

namespace Eikonal.FastMarching

variable {α : Type} [Scalar α]

/-- What a march runs on. -/
structure Field (α : Type) where
  rows : Nat
  columns : Nat
  steps : Steps α
  slowness : Array α

/-- How far a march has come. -/
structure March (α : Type) where
  value : Array α
  known : Array Bool
  /-- Values waiting for their turn, the least first; of equal ones the lesser node comes first. -/
  queue : List (Entry Nat α)

/-- Puts an entry into its place in a queue. -/
def enqueue (e : Entry Nat α) : List (Entry Nat α) → List (Entry Nat α)
  | [] => [e]
  | f :: rest => if f.before e then f :: enqueue e rest else e :: f :: rest

theorem length_enqueue (e : Entry Nat α) (q : List (Entry Nat α)) :
    (enqueue e q).length = q.length + 1 := by
  induction q with
  | nil => rfl
  | cons f rest ih =>
    unfold enqueue
    split <;> simp [ih]

namespace Field

/-- The nodes before and after a node in its row. -/
def beside (f : Field α) (k : Nat) : List Nat :=
  (if 0 < k % f.columns then [k - 1] else []) ++
    (if k % f.columns + 1 < f.columns then [k + 1] else [])

/-- The nodes above and below a node. -/
def aboveBelow (f : Field α) (k : Nat) : List Nat :=
  (if f.columns ≤ k then [k - f.columns] else []) ++
    (if k + f.columns < f.rows * f.columns then [k + f.columns] else [])

/-- The nodes around a node. -/
def around (f : Field α) (k : Nat) : List Nat := f.aboveBelow k ++ f.beside k

omit [Scalar α] in
theorem length_around_le (f : Field α) (k : Nat) : (f.around k).length ≤ 4 := by
  unfold around aboveBelow beside
  split <;> split <;> split <;> split <;> simp

end Field

namespace March

/-- Whether a node is known. A node that does not exist counts as known: nothing is left to do. -/
def isKnown (m : March α) (k : Nat) : Bool := m.known.getD k true

/-- The least known value among nodes; infinity if none is known. -/
def leastKnown (m : March α) (ks : List Nat) : α :=
  Scalar.leastOf ((ks.filter m.isKnown).map fun k => m.value.getD k Scalar.inf)

/-- Computes the arrival at a node that is not known yet, and keeps and queues it if it is earlier
than the value so far. -/
def visit (f : Field α) (m : March α) (k : Nat) : Except UpdateError (March α) :=
  if m.isKnown k then .ok m
  else
    match arrival? f.steps (f.slowness.getD k Scalar.one) (m.leastKnown (f.beside k))
        (m.leastKnown (f.aboveBelow k)) with
    | .error e => .error e
    | .ok none => .ok m
    | .ok (some t) =>
      if Scalar.lt t (m.value.getD k Scalar.inf) then
        .ok { m with value := m.value.setIfInBounds k t, queue := enqueue ⟨t, k⟩ m.queue }
      else .ok m

def visitAll (f : Field α) (m : March α) (ks : List Nat) : Except UpdateError (March α) :=
  ks.foldlM (visit f) m

/-- Whether an entry is left over from before its node became known or its value fell. -/
def isStale (m : March α) (e : Entry Nat α) : Bool :=
  m.isKnown e.cell || Scalar.lt (m.value.getD e.cell Scalar.inf) e.value

/-- Makes a node known. -/
def settle (m : March α) (k : Nat) : March α := { m with known := m.known.setIfInBounds k true }

/-- Takes an entry out of the queue, of which `rest` is left: a stale one is skipped, else its node
becomes known and the nodes around it are visited. -/
def step (f : Field α) (m : March α) (e : Entry Nat α) (rest : List (Entry Nat α)) :
    Except UpdateError (March α) :=
  let m := { m with queue := rest }
  if m.isStale e then .ok m else (m.settle e.cell).visitAll f (f.around e.cell)

/-- A bound on the number of steps that are left: every node that becomes known queues at most four
entries. -/
def remaining (m : March α) : Nat := m.queue.length + 5 * m.known.count false

theorem visit_bounds {f : Field α} {m m' : March α} {k : Nat} (h : m.visit f k = .ok m') :
    m'.known = m.known ∧ m'.queue.length ≤ m.queue.length + 1 := by
  unfold visit at h
  split at h
  · cases h
    exact ⟨rfl, by omega⟩
  · split at h
    · cases h
    · cases h
      exact ⟨rfl, by omega⟩
    · split at h
      · cases h
        exact ⟨rfl, by simp [length_enqueue]⟩
      · cases h
        exact ⟨rfl, by omega⟩

theorem visitAll_bounds {f : Field α} {ks : List Nat} {m m' : March α}
    (h : m.visitAll f ks = .ok m') :
    m'.known = m.known ∧ m'.queue.length ≤ m.queue.length + ks.length := by
  induction ks generalizing m with
  | nil =>
    cases h
    exact ⟨rfl, by simp⟩
  | cons k ks ih =>
    simp only [visitAll, List.foldlM_cons] at h
    cases h1 : m.visit f k with
    | error e =>
      rw [h1] at h
      cases h
    | ok m1 =>
      rw [h1] at h
      obtain ⟨hk, hq⟩ := visit_bounds h1
      obtain ⟨hk', hq'⟩ := ih h
      exact ⟨hk'.trans hk, by simp only [List.length_cons]; omega⟩

omit [Scalar α] in
theorem count_settle {m : March α} {k : Nat} (h : m.isKnown k = false) :
    (m.settle k).known.count false + 1 = m.known.count false := by
  have hlt : k < m.known.size := by
    apply Decidable.byContradiction
    intro hn
    simp [isKnown, Array.getD, hn] at h
  have hget : m.known[k] = false := by simpa [isKnown, Array.getD, hlt] using h
  have hpos : 0 < m.known.count false := Array.count_pos_iff.2 (hget ▸ Array.getElem_mem hlt)
  simp [settle, Array.setIfInBounds, hlt, Array.count_set, hget]
  omega

theorem remaining_step {f : Field α} {m m' : March α} {e : Entry Nat α}
    {rest : List (Entry Nat α)} (hq : m.queue = e :: rest) (h : m.step f e rest = .ok m') :
    m'.remaining < m.remaining := by
  have hlen : m.queue.length = rest.length + 1 := by simp [hq]
  unfold step at h
  dsimp only at h
  split at h
  · cases h
    simp only [remaining]
    omega
  · rename_i hs
    have hk : m.isKnown e.cell = false := by
      simp only [isStale, Bool.or_eq_true, not_or, Bool.not_eq_true] at hs
      exact hs.1
    obtain ⟨h1, h2⟩ := visitAll_bounds h
    have h3 := count_settle hk
    have h4 := f.length_around_le e.cell
    have h5 : m'.known.count false + 1 = m.known.count false := by
      rw [h1]
      exact h3
    simp only [settle] at h2
    simp only [remaining]
    omega

/-- Takes entries out of the queue until it is empty. -/
def advance (f : Field α) (m : March α) : Except UpdateError (March α) :=
  match _hq : m.queue with
  | [] => .ok m
  | e :: rest =>
    match _h : m.step f e rest with
    | .error e => .error e
    | .ok m' => advance f m'
termination_by m.remaining
decreasing_by exact remaining_step ‹_› ‹_›

end March

/-- The march that begins at the seeds, with value zero. -/
def begin (seeds : Array Bool) : March α :=
  { value := seeds.map fun s => if s then Scalar.zero else Scalar.inf
    known := seeds.map fun _ => false
    queue := ((List.range seeds.size).filter fun k => seeds.getD k false).map
      fun k => ⟨Scalar.zero, k⟩ }

/-- The arrival times from the seeds; infinity where there is no seed to come from. -/
def arrivals (f : Field α) (seeds : Array Bool) : Except UpdateError (Array α) :=
  ((begin seeds).advance f).map March.value

inductive FieldError where
  | array (why : ArrayError)
  | update (why : UpdateError)
deriving DecidableEq, Repr

/-- The arrival times from a two-dimensional array of seeds, with a slowness array that is repeated
along missing axes and axes of size one. -/
def travelTime (seeds : NdArray Bool) (steps : Steps α) (slowness : NdArray α) :
    Except FieldError (NdArray α) :=
  match seeds.shape with
  | [rows, columns] =>
    match slowness.spreadTable rows columns with
    | .error e => .error (.array e)
    | .ok s =>
      match arrivals { rows, columns, steps, slowness := s } seeds.items with
      | .error e => .error (.update e)
      | .ok times => .ok { shape := [rows, columns], items := times }
  | _ => .error (.array .mismatch)

end Eikonal.FastMarching
