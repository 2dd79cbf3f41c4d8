import Eikonal.Chart
import Eikonal.FastMarching.Basic
import Eikonal.Grid.Cartesian
import Eikonal.Metric.Build
import Eikonal.Report
import Eikonal.Solver.Basic

/-! The comparison of the ordered upwind method with fast marching: a point source in a square of
uniform slowness, where the exact times are known. -/

namespace Eikonal.Compare

inductive CaseError where
  /-- A square of no cells has no cell size. -/
  | noCells
  | grid (why : GridError)
  | solve (why : SolveError Float)
  | marching (why : FastMarching.FieldError)

/-- A point source in the middle of a square of `n` by `n` cells. -/
structure Problem where
  n : Nat
  slowness : Float
  /-- The length of a cell. -/
  step : Float
  grid : CellGrid Float
  mesh : Mesh Float
  source : Nat

/-- The problem on a square with sides of the given length. -/
def Problem.ofSize (memory : Memory) (n : Int) (slowness length : Float) :
    Except CaseError Problem := do
  if n = 0 then throw .noCells
  let grid ← (CellGrid.cartesian memory n n length length none).mapError .grid
  let mesh ← (Mesh.ofGrid memory grid).mapError .grid
  let size := n.toNat
  return {
    n := size
    slowness
    step := length / Float.ofInt n
    grid
    mesh
    source := size / 2 * size + size / 2 }

/-- The times of the ordered upwind method, cell by cell. -/
def Problem.upwind (memory : Memory) (p : Problem) : Except CaseError (Array Float) := do
  let metric ← (MetricField.isotropic memory p.grid.size (.scalar p.slowness)).mapError
    fun e => .grid (.array e)
  let (_, result) := (Solver.new p.mesh none).solve metric.toArray (.array [.int p.source])
  result.mapError .solve

/-- The times of fast marching with a node in the centre of every cell. -/
def Problem.marching (p : Problem) : Except CaseError (NdArray Float) :=
  let seeds := (Array.replicate (p.n * p.n) false).setIfInBounds p.source true
  (FastMarching.travelTime { shape := [p.n, p.n], items := seeds } ⟨p.step, p.step⟩
    (.scalar p.slowness)).mapError .marching

/-- The exact times, cell by cell. -/
def Problem.exact (p : Problem) : Array Float :=
  let centre := p.mesh.point p.source
  p.mesh.points.map fun q => p.slowness * Scalar.hypot (q.x - centre.x) (q.y - centre.y)

/-- The results for one problem, in rows and columns. -/
structure Case where
  problem : Problem
  times : Array Float
  upwind : NdArray Float
  marching : NdArray Float
  exact : NdArray Float

/-- Puts the results of both methods beside the exact times. -/
def Case.ofTimes (p : Problem) (times : Array Float) (marching : NdArray Float) :
    Except CaseError Case := do
  let layOut (l : Array Float) : Except CaseError (NdArray Float) :=
    (p.grid.scatter (.ofList l.toList) nan).mapError .grid
  return { problem := p, times, upwind := ← layOut times, marching, exact := ← layOut p.exact }

/-- Solves one problem with both methods. -/
def run (memory : Memory) (n : Int) (slowness length : Float) : Except CaseError Case := do
  let p ← Problem.ofSize memory n slowness length
  let times ← p.upwind memory
  let marching ← p.marching
  Case.ofTimes p times marching

/-- The differences between two arrays. -/
def differences (a b : NdArray Float) : List Float := (Array.zipWith (· - ·) a.items b.items).toList

/-- The greatest difference between two arrays. -/
def greatestError (a b : NdArray Float) : Float :=
  (Scalar.greatest? ((differences a b).map Float.abs)).getD nan

/-- A line of columns: one of eight characters, then columns of fifteen. -/
def columns (first : String) (rest : List String) : String :=
  Report.columns ((8, first) :: rest.map fun s => (15, s))

def ruleLine : String := String.ofList (List.replicate 70 '-')

/-- A case with the seconds that both methods took. -/
structure Timed where
  case : Case
  upwindTime : Float
  marchingTime : Float

def errorLines (c : Case) : List Text :=
  let label (method : String) : Text := Text.ofString s!"exact ({method}, n={c.problem.n})"
  [[], Text.ofString s!"--- n = {c.problem.n} ---"] ++
    Report.errors (differences c.upwind c.exact) (label "ordered upwind") ++
    Report.errors (differences c.marching c.exact) (label "fast marching")

def tableRow (t : Timed) : String :=
  columns (toString t.case.problem.n)
    [fixedText 6 (greatestError t.case.upwind t.case.exact),
      fixedText 6 (greatestError t.case.marching t.case.exact),
      fixedText 3 t.upwindTime, fixedText 3 t.marchingTime]

/-- The chart of the last case. -/
def chart {ε : Type} (memory : Memory) (r : Renderer ε) (c : Case) : Except (ChartError ε) Chart :=
  Chart.arrivalTimes memory r c.problem.grid (.ofList c.times.toList)
    (some (.array [.int c.problem.source])) (some Chart.defaultCount)
    (Text.ofString "Point Source, Ordered Upwind")
    (some (Text.ofString "compare_isotropic_reference.png"))

def heading : List Text :=
  Report.banner <| Text.ofString
    "ORDERED UPWIND (unstructured) vs FAST MARCHING (structured): POINT SOURCE"

def table (ts : List Timed) : List Text :=
  (["", ruleLine,
    columns "n" ["OUM max err", "FMM max err", "OUM time (s)", "FMM time (s)"],
    ruleLine] ++ ts.map tableRow).map Text.ofString

/-- Why a comparison has no report. -/
inductive ReportError (ε : Type) where
  /-- There is no case to draw. -/
  | noCases
  | chart (why : ChartError ε)

/-- The lines of the whole comparison; the last case is the one drawn. -/
def report {ε : Type} (memory : Memory) (r : Renderer ε) (ts : List Timed) :
    Except (ReportError ε) (List Text) :=
  match ts.getLast? with
  | none => .error .noCases
  | some last =>
    match chart memory r last.case with
    | .error e => .error (.chart e)
    | .ok c =>
      .ok (heading ++ (ts.flatMap fun t => errorLines t.case) ++ table ts ++
        c.savedLines ++ Report.completion (Text.ofString "Comparison completed."))

def defaultSizes : List Int := [21, 41, 81]

end Eikonal.Compare
