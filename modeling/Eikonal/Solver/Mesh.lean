import Eikonal.Grid.Neighbours

/-! Meshes: what the solver needs of a plane grid. Neighbours stand in counter-clockwise order about
their cell, so consecutive ones bound a wedge. -/

namespace Eikonal

/-- The cells of a plane grid, ready for solving. -/
structure Mesh (α : Type) where
  points : Array (Vec α)
  /-- The neighbours of every cell, counter-clockwise. -/
  neighbours : NeighbourTable
  /-- For every cell the greatest distance to a neighbour. -/
  spacing : Array α

namespace Mesh

variable {α : Type} [Scalar α]

def size (m : Mesh α) : Nat := m.points.size

def point (m : Mesh α) (c : Nat) : Vec α := m.points.getD c default

/-- The neighbours of a cell, counter-clockwise. -/
def around (m : Mesh α) (c : Nat) : List Nat := m.neighbours.row c

/-- The mesh of centroids and a neighbour table in any order. -/
def ofTable (points : Array (Vec α)) (t : NeighbourTable) : Mesh α :=
  let ordered := t.counterClockwise points
  { points
    neighbours := ordered
    spacing := ordered.localSpacing fun a b =>
      (points.getD a default - points.getD b default).norm }

/-- The mesh of a grid, which must be a plane one. -/
def ofGrid (memory : Memory) (g : CellGrid α) : Except GridError (Mesh α) :=
  if g.dimensions = 2 then (g.neighbours memory).map (ofTable g.points) else .error .notPlanar

/-- The greatest distance between neighbours; zero for a mesh without cells. -/
def width (m : Mesh α) : α := greatestSpacing m.spacing

end Mesh

end Eikonal
