import Eikonal.Front
import Eikonal.Grid.Basic

/-! Rectangular grids, chains of cells, and values laid out in rows and columns. -/

namespace Eikonal.CellGrid

variable {α : Type} [Scalar α]

/-- The rows and columns of the active positions of a mask, row by row. -/
def activePositions (nx ny : Nat) (mask : Array Bool) : List (Nat × Nat) :=
  ((List.range ny).flatMap fun j => (List.range nx).map fun i => (j, i)).filter
    fun p => mask.getD (p.1 * nx + p.2) false

/-- The corner nodes of the cell in row `j` and column `i`, counter-clockwise. Nodes are numbered
row by row, `nx + 1` to a row. -/
def corners (nx j i : Nat) : List Int :=
  [j * (nx + 1) + i, j * (nx + 1) + (i + 1), (j + 1) * (nx + 1) + (i + 1), (j + 1) * (nx + 1) + i]

/-- The grid of the active cells of a layout of `ny` rows and `nx` columns on the rectangle from
the origin to `(lx, ly)`. -/
def ofMask (nx ny : Nat) (lx ly : α) (mask : Array Bool) : CellGrid α :=
  let dx := lx / Scalar.natCast nx
  let dy := ly / Scalar.natCast ny
  let half : α := Scalar.decimal 5 1
  let active := activePositions nx ny mask
  { dimensions := 2
    centroids := (active.map fun p =>
      #[(Scalar.natCast p.2 + half) * dx, (Scalar.natCast p.1 + half) * dy]).toArray
    cellNodes := (active.map fun p => corners nx p.1 p.2).toArray
    nodes? := some ((Scalar.evenly Scalar.zero ly (ny + 1)).flatMap fun y =>
      (Scalar.evenly Scalar.zero lx (nx + 1)).map fun x => ⟨x, y⟩).toArray
    index? := some (active.map fun p => ((p.1 : Int), (p.2 : Int)))
    layout? := some (ny, nx) }

/-- A rectangular grid. Without a mask every position is active. -/
def cartesian (memory : Memory) (nx ny : Int) (lx ly : α) (mask? : Option (NdArray Bool)) :
    Except GridError (CellGrid α) := do
  let mask ← match mask? with
    | none =>
      (NdArray.checkSizes memory 1 [ny, nx]).mapError .array
      pure (Array.replicate (ny.toNat * nx.toNat) true)
    | some m =>
      if m.shape.map Int.ofNat ≠ [ny, nx] then throw (.maskShape ny nx m.shape)
      pure m.items
  if nx = 0 || ny = 0 then throw .emptyAxis
  return ofMask nx.toNat ny.toNat lx ly mask

/-- The cells of a chain next to cell `c`: the one before it and the one after it. -/
def chainLinks (n c : Nat) : List GivenId :=
  let around : List Int := [c - 1, c + 1]
  (around.filter fun d => 0 ≤ d && d < (n : Int)).map Except.ok

/-- Cells at equal steps along the x axis, each linked to the one before and the one after it. -/
def chain (memory : Memory) (n : Int) (spacing : α) : Except GridError (CellGrid α) := do
  (NdArray.checkSizes memory 8 [n]).mapError .array
  let cells := List.range n.toNat
  return {
    dimensions := 2
    centroids := (cells.map fun c => #[Scalar.natCast c * spacing, Scalar.zero]).toArray
    links? := some (cells.map (chainLinks n.toNat)) }

/-- The place of row `p.1` and column `p.2` in a layout, row by row; indices below zero count from
the end. -/
def slot? (ny nx : Nat) (p : Int × Int) : Option Nat := do
  return (← place? ny p.1) * nx + (← place? nx p.2)

/-- One value for each position of a layout, put into its row and column, and `fill` everywhere
else. Of two values in one position the later one counts. -/
def scatterAt (ny nx : Nat) (index : List (Int × Int)) (values : Nested α) (fill : α) :
    Except ArrayError (NdArray α) := do
  let spread ← (← values.toArray).dropOuterAxes.spread index.length
  match index.mapM (slot? ny nx) with
  | none => throw .outOfRange
  | some slots =>
    return {
      shape := [ny, nx]
      items := (slots.zip spread.toList).foldl (fun t p => t.setIfInBounds p.1 p.2)
        (Array.replicate (ny * nx) fill) }

/-- The values of the cells in their rows and columns, and `fill` in the positions that have no
cell. A grid with cells but without any position has no rows and columns to go by. -/
def scatter (g : CellGrid α) (values : Nested α) (fill : α) : Except GridError (NdArray α) :=
  match g.index?, g.layout? with
  | some index, some (ny, nx) =>
    if ny < 0 || nx < 0 then .error (.array .negativeSize)
    else if index.isEmpty && 0 < g.size then .error (.array .outOfRange)
    else (scatterAt ny.toNat nx.toNat index values fill).mapError .array
  | _, _ => .error .notCartesian

end Eikonal.CellGrid
