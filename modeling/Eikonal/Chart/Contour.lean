import Eikonal.Chart.Basic
import Eikonal.Grid.Basic
import Eikonal.Grid.Span

/-! Contour lines of arrival times. They run through the triangles between reached cells, so there
are some only where the cells span a plane and their times differ. -/

namespace Eikonal.Chart

variable {ε : Type}

/-- Whether points can be the corners of triangles: there are three at least, and about their mean
they stretch in two directions. -/
def canTriangulate (a : NdArray Float) : Except (ChartError ε) Bool :=
  match a.shape with
  | [] => .error .notIterable
  | n :: rest =>
    if n < 3 then .ok false
    else
      match rest with
      | [0] => .error .noCoordinates
      | [columns] =>
        match Span.plane? columns (a.groups columns) with
        | some yes => .ok yes
        | none => .error .notFinite
      | _ => .ok false

/-- The times of contour lines, evenly spaced from the least to the greatest time. -/
def levels (memory : Memory) (least greatest : Float) (count? : Option Int) :
    Except (ChartError ε) (List Float) :=
  match count? with
  | none => .error .badCount
  | some count =>
    match NdArray.checkSizes memory 8 [count] with
    | .error e => .error (.array e)
    | .ok () => .ok (Scalar.evenly least greatest count.toNat)

/-- The times of the contour lines through cells with the given centroids and times, if any can be
drawn. -/
def contourLevels (memory : Memory) (r : Renderer ε) (dimensions : Nat)
    (rows : List (Array Float)) (least greatest : Float) (count? : Option Int) :
    Except (ChartError ε) (Option (List Float)) := do
  let a : NdArray Float :=
    { shape := [rows.length, dimensions], items := rows.toArray.flatMap id }
  if (← canTriangulate a) && 0 < greatest - least then
    let times ← levels memory least greatest count?
    (r.contours (rows.map CellGrid.planePoint) times).mapError .renderer
    return some times
  else return none

end Eikonal.Chart
