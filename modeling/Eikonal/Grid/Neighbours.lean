import Std.Data.TreeSet
import Eikonal.Front
import Eikonal.Grid.Basic
import Eikonal.Grid.Sparse

/-! Neighbour tables. Two cells are neighbours if they share a node or, where a grid has links, if
one is linked to the other. Each list of neighbours can be put into counter-clockwise order about
its cell, so that consecutive neighbours bound a wedge there. -/

namespace Eikonal

/-- The neighbours of every cell. -/
abbrev NeighbourTable := Array (List Nat)

/-- The neighbours of a cell. -/
def NeighbourTable.row (t : NeighbourTable) (c : Nat) : List Nat := t.getD c []

namespace CellGrid

variable {α : Type}

/-- The cell that a link of cell `c` leads to, which must be another one of the `n` cells. -/
def linkTarget (n c : Nat) : GivenId → Except GridError Nat
  | .error e => .error (.badId e)
  | .ok d =>
    if 0 ≤ d && d < n then
      if d = c then .error (.selfLink c) else .ok d.toNat
    else .error (.outOfRange d c n)

/-- The neighbours of every cell while links are added to them. -/
abbrev LinkSets := Array (Std.TreeSet Nat)

/-- Puts each of two cells into the set of the other. -/
def link (sets : LinkSets) (c d : Nat) : LinkSets :=
  (sets.modify c (·.insert d)).modify d (·.insert c)

/-- Links cell `c` with all that its list leads to. The first bad link is an error. -/
def linkList (n c : Nat) (sets : LinkSets) (l : List GivenId) : Except GridError LinkSets :=
  l.foldlM (fun sets id => (linkTarget n c id).map (link sets c)) sets

/-- The table in which two cells are neighbours if either one is linked to the other. -/
def linked (n : Nat) (links : List (List GivenId)) : Except GridError NeighbourTable :=
  if links.length = n then
    (links.zipIdx.foldlM (fun sets p => linkList n p.2 sets p.1) (Array.replicate n ∅)).map
      fun sets => sets.map (·.toList)
  else .error (.listCount n links.length)

/-- Checks the node ids of a grid. There must be as many nodes as a word can count, no id may be
negative, and it must be possible to hold a table of the nodes, which has eight bytes for each of
them and for the end. -/
def checkNodes (memory : Memory) (g : CellGrid α) : Except GridError Unit :=
  let fails (bad : Int → Bool) : Bool := g.cellNodes.any (·.any bad)
  if fails fun i => !fitsWord (i + 1) then .error (.badId .unbounded)
  else if fails (· < 0) then .error .negativeNode
  else
    let last : Int := g.cellNodes.foldl (fun m l => l.foldl max m) (-1)
    (NdArray.checkSizes memory 8 [last + 2]).mapError .array

/-- The incidence of cells and nodes: an entry of one for every node in the list of a cell. -/
def incidence (g : CellGrid α) : SparseTable Nat Int :=
  (List.range g.size).flatMap fun c => (g.cellNodes.getD c []).map fun i => ⟨c, i, 1⟩

/-- The table in which two cells are neighbours if they share a node. The product of the incidence
and its transpose counts the shared nodes. With zeros on its diagonal, the neighbours of a cell are
the columns where its row holds anything but zero. -/
def sharing (g : CellGrid α) : NeighbourTable :=
  let counts := (g.incidence.mul g.incidence.transpose).rows
  let cells (c : Nat) : Std.TreeMap Nat Nat :=
    ((counts.getD c []).columnSums.insert c 0).filter fun _ count => count != 0
  ((List.range g.size).map fun c => (cells c).keys).toArray

/-- The neighbours of every cell, ascending. -/
def neighbours (memory : Memory) (g : CellGrid α) : Except GridError NeighbourTable :=
  match g.links? with
  | some links => linked g.size links
  | none =>
    if g.size = 0 then .ok #[]
    else
      (g.checkNodes memory).map fun _ => g.sharing

end CellGrid

/-! ### Counter-clockwise order -/

section Order

variable {α : Type} [Scalar α]

/-- Whether the angle `a` comes strictly before `b`; a NaN comes after everything else. -/
def angleBefore (a b : α) : Bool := Scalar.lt a b || (Scalar.isNaN b && !Scalar.isNaN a)

/-- Sorts by the angles of directions. Things in the same direction keep their order. -/
def sortByAngle {κ : Type} (direction : κ → Vec α) (l : List κ) : List κ :=
  l.mergeSort fun a b => !angleBefore (direction b).angle (direction a).angle

namespace NeighbourTable

/-- Every list in counter-clockwise order about its cell, from the angle `-π` on. -/
def counterClockwise (points : Array (Vec α)) (t : NeighbourTable) : NeighbourTable :=
  t.mapIdx fun c l =>
    sortByAngle (fun d => points.getD d default - points.getD c default) l

end NeighbourTable

/-- Orders the ids listed for cell `c`, which come from outside and count from the end if they are
below zero. A list of two or more needs its cell and all its ids to exist, and centroids with two
coordinates. -/
def orderList (centroids : Array (Array α)) (c : Nat) (l : List Int) :
    Except ArrayError (List Int) :=
  let row (i : Int) : Array α := ((place? centroids.size i).bind fun k => centroids[k]?).getD #[]
  let usable (i : Int) : Bool := 2 ≤ (row i).size
  if l.length < 2 then .ok l
  else if usable c && l.all usable then
    .ok (sortByAngle (fun d => CellGrid.planePoint (row d) - CellGrid.planePoint (row c)) l)
  else .error .outOfRange

/-- Orders the ids listed for every cell. -/
def orderLists (centroids : Array (Array α)) (lists : List (List Int)) :
    Except ArrayError (List (List Int)) :=
  lists.zipIdx.mapM fun (l, c) => orderList centroids c l

/-! ### Spacing -/

/-- The distance between two points of any number of dimensions. -/
def distance (a b : Array α) : α :=
  Scalar.sqrt ((Array.zipWith (fun x y => Scalar.sq (x - y)) a b).foldl (· + ·) Scalar.zero)

namespace NeighbourTable

/-- For every cell the greatest distance to a neighbour; zero for a cell that has none. -/
def localSpacing (dist : Nat → Nat → α) (t : NeighbourTable) : Array α :=
  t.mapIdx fun c l => (Scalar.greatest? (l.map fun d => dist d c)).getD Scalar.zero

end NeighbourTable

/-- The greatest of the local spacings; zero if there are no cells. -/
def greatestSpacing (spacing : Array α) : α := (Scalar.greatest? spacing.toList).getD Scalar.zero

end Order

end Eikonal
