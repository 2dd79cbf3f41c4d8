import Eikonal.Chart.Contour
import Eikonal.Front

/-! Charts of a solution. On a chart of arrival times the reached cells are points with a colour,
the others are grey, and start cells are marked with stars. On a chart of the acceptance order the
colour of a cell is its place in the order. -/

namespace Eikonal.Chart

variable {ε : Type}

/-- The points of the start cells that a value names, in ascending order of their ids. -/
def starPoints (points : Array (Vec Float)) (v : Json) : Except (ChartError ε) (List (Vec Float)) :=
  match v.parts? with
  | none => .error .notIterable
  | some parts =>
    let point? (i : Int) : Option (Vec Float) := do points[← place? points.size i]?
    match parts.mapM Json.toInt with
    | .error e => .error (.badId e)
    | .ok ids =>
      if !ids.all fitsWord then .error (.badId .unbounded)
      else
        match (ids.mergeSort fun a b => a ≤ b).mapM point? with
        | some ps => .ok ps
        | none => .error .outOfRange

def defaultCount : Int := 20

def defaultTitle : Text := Text.ofString "Time of Flight"

/-- The points that are marked with stars. -/
def markedPoints (g : CellGrid Float) (starts? : Option Json) :
    Except (ChartError ε) (List (Vec Float)) :=
  match starts? with
  | none => .ok []
  | some v => do
    let ps ← starPoints g.points v
    if g.dimensions < 2 && !ps.isEmpty then throw .outOfRange
    return ps

/-- The cells of a solution, split into the reached ones and the others. -/
structure Split where
  reached : List (Array Float × Float)
  unreached : List (Vec Float)

/-- The reached and the unreached cells of a grid, one time for each cell. -/
def splitCells (g : CellGrid Float) (times : NdArray Float) : Except (ChartError ε) Split :=
  let fits := times.shape == [g.size] && 2 ≤ g.dimensions
  if !fits && !times.items.isEmpty then .error .outOfRange
  else
    let (reached, unreached) :=
      (g.centroids.toList.zip times.items.toList).partition fun c => c.2.isFinite
    .ok ⟨reached, unreached.map fun c => CellGrid.planePoint c.1⟩

/-- The only time of a solution without axes goes with the points whose coordinates are those of the
first two cells: the first cell gives every x, the second one every y. -/
def splitSingle (g : CellGrid Float) (time : Float) : Except (ChartError ε) Split :=
  match g.centroids[0]?, g.centroids[1]? with
  | some xs, some ys =>
    if !time.isFinite then .ok ⟨[], List.zipWith Vec.mk xs.toList ys.toList⟩
    else
      match xs.toList, ys.toList with
      | [x], [y] => .ok ⟨[(#[x, y], time)], []⟩
      | _, _ => .error .colourCount
  | _, _ => .error .outOfRange

/-- The chart of arrival times on a grid, with the start cells marked if they are given. -/
def arrivalTimes (memory : Memory) (r : Renderer ε) (g : CellGrid Float) (times : NdArray Float)
    (starts? : Option Json) (count? : Option Int) (title : Text) (file? : Option Text) :
    Except (ChartError ε) Chart := do
  let ⟨reached, unreached⟩ ← match times.shape, times.items[0]? with
    | [], some time => splitSingle g time
    | _, _ => splitCells g times
  let reachedTimes := reached.map (·.2)
  let levels? ← match Scalar.least? reachedTimes, Scalar.greatest? reachedTimes with
    | some least, some greatest => do
      (r.colourBar least greatest).mapError .renderer
      contourLevels memory r g.dimensions (reached.map (·.1)) least greatest count?
    | _, _ => pure none
  let marked ← markedPoints g starts?
  drawn r {
    title
    scatters :=
      (if unreached.isEmpty then [] else [⟨unreached, none⟩]) ++
        (if reached.isEmpty then []
        else [⟨reached.map fun c => CellGrid.planePoint c.1, some reachedTimes⟩])
    levels?
    stars := if marked.isEmpty then [] else [marked]
    colourBar? := if reached.isEmpty then none else some "T"
    legend := (if unreached.isEmpty then [] else ["Unreached"]) ++
      (if marked.isEmpty then [] else ["Start cells"])
    file? }

/-- The place of each of `n` cells in an order, the last one if there are several. -/
def ranks (n : Nat) (order : List Nat) : Array (Option Nat) :=
  order.zipIdx.foldl (fun r p => r.setIfInBounds p.1 (some p.2)) (Array.replicate n none)

/-- The chart of the order in which cells were accepted: the colour of a cell is its last place in
the order. -/
def acceptanceOrder (r : Renderer ε) (g : CellGrid Float) (order : NdArray Int)
    (file? : Option Text) : Except (ChartError ε) Chart :=
  match order.dropOuterAxes.shape, order.items.toList.mapM (place? g.size) with
  | [_], none => .error .outOfRange
  | [], none => .error .outOfRange
  | [_], some places =>
    if g.dimensions < 2 then .error .outOfRange
    else do
      let cells := g.points.toList.zip (ranks g.size places).toList
      let reached := cells.filterMap fun c => c.2.map fun k => (c.1, Float.ofNat k)
      match Scalar.least? (reached.map (·.2)), Scalar.greatest? (reached.map (·.2)) with
      | some least, some greatest => (r.colourBar least greatest).mapError .renderer
      | _, _ => pure ()
      drawn r {
        title := Text.ofString "Acceptance Order"
        scatters := [
          ⟨(cells.filter fun c => c.2.isNone).map (·.1), none⟩,
          ⟨reached.map (·.1), some (reached.map (·.2))⟩]
        colourBar? := some "Acceptance step"
        file? }
  | _, _ => .error .notList

end Eikonal.Chart
