import Eikonal.Json.Number
import Eikonal.NdArray
import Eikonal.Plane

/-! Cell grids: the centroids of the cells, and either the nodes of every cell or lists of linked
cells, from which the neighbours follow. -/

namespace Eikonal

/-- The id of a cell or a node as it was given: a number, or the reason why it is none. -/
abbrev GivenId := Except NumberError Int

/-- Why a grid cannot be built, or why its neighbours cannot be told. -/
inductive GridError where
  | centroidShape (cells dimensions : Int) (got : List Nat)
  /-- Some cells have nodes listed and others have not. -/
  | missingNodes
  | noConnectivity
  | listCount (cells got : Nat)
  | outOfRange (id : Int) (cell cells : Nat)
  | selfLink (cell : Nat)
  | badId (why : NumberError)
  | negativeNode
  | maskShape (ny nx : Int) (got : List Nat)
  /-- An axis of no cells has no cell size. -/
  | emptyAxis
  | notCartesian
  | notPlanar
  /-- Points that are too few or on one line have no triangulation. -/
  | degenerate
  | array (why : ArrayError)
deriving DecidableEq, Repr

def GridError.message? : GridError → Option String
  | centroidShape n d got =>
    some s!"cell_centroids must have shape {shapeText [n, d]}, got {shapeText (got.map Int.ofNat)}"
  | missingNodes => some "cell_nodes must list the nodes of every cell"
  | noConnectivity => some "CellGrid needs either cell_nodes or explicit neighbours"
  | listCount n got => some s!"Expected neighbour lists for {n} cells, got {got}"
  | outOfRange id c n => some s!"Neighbour {id} of cell {c} is out of range [0, {n})"
  | selfLink c => some s!"Cell {c} lists itself as a neighbour"
  | maskShape ny nx got =>
    some s!"mask must have shape {shapeText [ny, nx]}, got {shapeText (got.map Int.ofNat)}"
  | notCartesian => some "Grid was not built from a cartesian layout"
  | notPlanar => some "Grid for AnisotropicEikonal2D must be 2d."
  | badId _ | negativeNode | emptyAxis | degenerate | array _ => none

structure CellGrid (α : Type) where
  dimensions : Nat
  /-- The coordinates of every centroid, as many as there are dimensions. -/
  centroids : Array (Array α)
  /-- The node ids of every cell; empty if the grid has links instead. -/
  cellNodes : Array (List Int) := #[]
  nodes? : Option (Array (Vec α)) := none
  /-- Linked cells, listed for every cell. They take precedence over shared nodes. -/
  links? : Option (List (List GivenId)) := none
  /-- The row and column of every cell in a rectangular layout. -/
  index? : Option (List (Int × Int)) := none
  /-- The numbers of rows and columns of the layout. -/
  layout? : Option (Int × Int) := none

namespace CellGrid

variable {α : Type}

def size (g : CellGrid α) : Nat := g.centroids.size

/-- Checks a grid for the given number of cells and dimensions: first the shape of the centroid
array, then the node ids, then that every cell has its nodes listed or the grid has links. -/
def check (cells dimensions : Int) (centroids : NdArray α) (cellNodes : List (List GivenId))
    (links? : Option (List (List GivenId))) : Except GridError (CellGrid α) :=
  if centroids.shape.map Int.ofNat = [cells, dimensions] then
    match cellNodes.mapM fun l => l.mapM id with
    | .error e => .error (.badId e)
    | .ok nodes =>
      if !nodes.isEmpty && nodes.length != cells.toNat then .error .missingNodes
      else if links?.isNone && nodes.isEmpty && 0 < cells then .error .noConnectivity
      else
        let d := dimensions.toNat
        let rows := if d = 0 then Array.replicate cells.toNat #[] else centroids.groups d
        .ok { dimensions := d, centroids := rows, cellNodes := nodes.toArray, links? }
  else .error (.centroidShape cells dimensions centroids.shape)

/-- A grid given by links alone, with as many cells as there are centroids. -/
def ofLinks (dimensions : Int) (centroids : NdArray α) (links : List (List GivenId)) :
    Except GridError (CellGrid α) :=
  check (centroids.shape.headD 0) dimensions centroids [] (some links)

/-- The first two coordinates of a centroid. -/
def planePoint [Scalar α] (row : Array α) : Vec α :=
  ⟨row.getD 0 Scalar.zero, row.getD 1 Scalar.zero⟩

/-- The centroids as points of the plane. -/
def points [Scalar α] (g : CellGrid α) : Array (Vec α) := g.centroids.map planePoint

end CellGrid

end Eikonal
