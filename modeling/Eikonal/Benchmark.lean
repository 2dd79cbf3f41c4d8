import Eikonal.Grid.Cartesian
import Eikonal.Metric.Build
import Eikonal.Report
import Eikonal.Solver.Basic

/-! The benchmark: square grids with the same anisotropic metric in every cell, solved from the cell
in the middle. -/

namespace Eikonal.Benchmark

inductive SizeError where
  | grid (why : GridError)
  | solve (why : SolveError Float)

/-- What is the same for all sizes. -/
structure Setting where
  /-- The slowness across the principal direction; along it the slowness is one. -/
  across : Float := 3
  /-- The angle of the principal direction. -/
  theta : Float := Float.atan2 0 (-1) / 6

def degrees (theta : Float) : Float := theta * (180 / Float.atan2 0 (-1))

/-- The first two lines: the setting and the heading of the table. -/
def heading (s : Setting) : List String :=
  [s!"Anisotropic eikonal benchmark (ratio {fixedText 1 s.across}, theta = " ++
      s!"{fixedText 0 (degrees s.theta)} deg)",
    Report.columns [(8, "n"), (10, "cells"), (12, "setup (s)"), (12, "solve (s)"),
      (12, "relaxations"), (10, "us/cell")]]

/-- The mesh of a square of `n` by `n` cells. -/
def mesh (memory : Memory) (n : Int) : Except SizeError (Mesh Float) :=
  match CellGrid.cartesian memory n n (1 : Float) 1 none with
  | .error e => .error (.grid e)
  | .ok g => (Mesh.ofGrid memory g).mapError .grid

/-- The solver on a mesh of `n` by `n` cells after a solve from the middle. -/
def solve (memory : Memory) (s : Setting) (n : Nat) (m : Mesh Float) :
    Except SizeError (Solver Float) :=
  match MetricField.constant memory m.size (.uniform 1) (.uniform s.across) s.theta with
  | .error e => .error (.grid (.array e))
  | .ok metric =>
    let middle := n / 2 * n + n / 2
    let (after, result) := (Solver.new m none).solve metric.toArray (.array [.int middle])
    match result with
    | .ok _ => .ok after
    | .error e => .error (.solve e)

/-- The row of a size, with the seconds that the setup and the solve took. -/
def row (n : Nat) (s : Solver Float) (setup solve : Float) : String :=
  let perCell := solve / Float.ofNat s.size * 1e6
  Report.columns [(8, toString n), (10, toString s.size), (12, fixedText 3 setup),
    (12, fixedText 3 solve), (12, toString s.run.relaxations), (10, fixedText 1 perCell)]

def defaultSizes : List Int := [25, 50, 100]

end Eikonal.Benchmark
