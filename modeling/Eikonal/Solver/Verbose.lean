import Eikonal.Report
import Eikonal.Solver.Basic

/-! What a talkative solver prints: the grid when it is made, and a summary of every solve. -/

namespace Eikonal.Solver

/-- The corners of the least box around points; nothing for no points. -/
def boundingBox? (ps : Array (Vec Float)) : Option (Vec Float × Vec Float) := do
  let xs := ps.toList.map Vec.x
  let ys := ps.toList.map Vec.y
  return (⟨← Scalar.least? xs, ← Scalar.least? ys⟩, ⟨← Scalar.greatest? xs, ← Scalar.greatest? ys⟩)

def gridLines (s : Solver Float) : List Text :=
  let counts := s.mesh.neighbours.toList.map List.length
  Report.grid (.whole s.size) (.whole (counts.min?.getD 0)) (.whole (counts.max?.getD 0))
    s.mesh.width (boundingBox? s.mesh.points)

/-- The lines about a solve from `starts` cells, which left the solver as it is. The last part,
with the time that the solve took, is printed only if the solve came to its end. -/
def solveLines (s : Solver Float) (starts : Nat) (complete : Bool) (elapsed : Float) :
    List Text :=
  let ratios := (s.metric?.getD #[]).toList.map Tensor.ratio
  let opening :=
    match Scalar.least? ratios, Scalar.greatest? ratios, Scalar.greatest? s.closeRadius.toList with
    | some least, some greatest, some radius =>
      Report.metric least greatest radius ++ Report.solveStart (.whole starts)
    | _, _, _ => []
  let closing :=
    if starts = 0 then [Text.ofString "  No start cells: every cell stays at +inf"]
    else if complete then
      Report.solvePerformance elapsed s.run.iterations s.run.relaxations ++
        Report.solution s.run.solution.toList
    else []
  opening ++ closing

end Eikonal.Solver
