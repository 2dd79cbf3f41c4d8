import Eikonal.Grid.Basic

/-! Grids of triangles. The triangulation of points of the plane comes from outside the library; its
triangles are the cells of a grid. -/

namespace Eikonal

/-- The corners of a triangle, as places in the list of points. -/
structure Triangle where
  a : Nat
  b : Nat
  c : Nat
deriving DecidableEq, Repr

namespace CellGrid

variable {α : Type} [Scalar α]

/-- The mean of three points. -/
def centre (a b c : Vec α) : Array α :=
  let three : α := Scalar.natCast 3
  #[(a.x + b.x + c.x) / three, (a.y + b.y + c.y) / three]

/-- The grid whose cells are the triangles of a triangulation. -/
def ofTriangles (points : Array (Vec α)) (l : List Triangle) : CellGrid α :=
  let point (i : Nat) : Vec α := points.getD i default
  { dimensions := 2
    centroids := (l.map fun t => centre (point t.a) (point t.b) (point t.c)).toArray
    cellNodes := (l.map fun t => [(t.a : Int), (t.b : Int), (t.c : Int)]).toArray
    nodes? := some points }

/-- The triangulation of points of the plane, one cell for each triangle. -/
def triangulated (triangulate : Array (Vec α) → Except GridError (List Triangle)) (a : NdArray α) :
    Except GridError (CellGrid α) :=
  match a.shape with
  | [_, 2] => do
    let points := (a.groups 2).map planePoint
    return ofTriangles points (← triangulate points)
  | _ => .error (.array .mismatch)

end CellGrid

end Eikonal
