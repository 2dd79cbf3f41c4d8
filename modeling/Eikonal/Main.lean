import Eikonal.Benchmark
import Eikonal.Compare
import Eikonal.FastMarching.PointSource

/-! The command line: a fast marching demonstration, the comparison of both methods, and the
benchmark. Charts are described by the library and not rendered here. -/

namespace Eikonal.CommandLine

/-- The command line sets no bound of its own on memory. -/
def memory : Memory := { bytes := Memory.addressRange - 1 }

/-- A renderer that draws nothing, so it refuses nothing. -/
def renderer : Renderer Empty :=
  { colourBar := fun _ _ => .ok ()
    contours := fun _ _ => .ok ()
    layOut := fun _ => .ok ()
    write := fun _ => .ok none }

/-- A result with the seconds that it took. -/
def timed {α : Type} (f : Unit → α) : IO (α × Float) := do
  let before ← IO.monoNanosNow
  let result ← IO.lazyPure f
  let after ← IO.monoNanosNow
  return (result, Float.ofNat (after - before) / 1e9)

/-- The value of a result; a failed one ends the program. -/
def orFail {ε α : Type} : Except ε α → IO α
  | .ok a => pure a
  | .error _ => throw (IO.userError "the computation failed")

def printLines (l : List String) : IO Unit := l.forM IO.println

/-- Fast marching from a point source, measured against the exact distance. -/
def demonstrate : IO Unit := do
  let errors ← orFail (FastMarching.PointSource.errors FastMarching.PointSource.defaultNodes)
  printLines (FastMarching.PointSource.lines errors)

/-- Solves one problem with both methods and takes their times. -/
def compareSize (n : Int) : IO Compare.Timed := do
  let p ← orFail (Compare.Problem.ofSize memory n 1 1)
  let (times, upwindTime) ← timed fun _ => p.upwind memory
  let (marching, marchingTime) ← timed fun _ => p.marching
  let case ← orFail (Compare.Case.ofTimes p (← orFail times) (← orFail marching))
  return { case, upwindTime, marchingTime }

/-- Compares both methods for the given sizes. -/
def compare (sizes : List Int) : IO Unit := do
  let cases ← sizes.mapM compareSize
  printLines ((← orFail (Compare.report memory renderer cases)).map Text.toString)

/-- Runs the benchmark for one size and prints its row. -/
def benchmarkSize (setting : Benchmark.Setting) (n : Int) : IO Unit := do
  let (mesh, setup) ← timed fun _ => Benchmark.mesh memory n
  let mesh ← orFail mesh
  let (solver, solve) ← timed fun _ => Benchmark.solve memory setting n.toNat mesh
  IO.println (Benchmark.row n.toNat (← orFail solver) setup solve)

/-- Runs the benchmark for the given sizes. -/
def benchmark (sizes : List Int) : IO Unit := do
  let setting : Benchmark.Setting := {}
  printLines (Benchmark.heading setting)
  sizes.forM (benchmarkSize setting)

end Eikonal.CommandLine

open Eikonal in
/-- Runs the part that the first argument names. -/
def main (args : List String) : IO UInt32 := do
  match args with
  | ["fastmarch"] => CommandLine.demonstrate
  | ["compare"] => CommandLine.compare Compare.defaultSizes
  | ["benchmark"] => CommandLine.benchmark Benchmark.defaultSizes
  | _ =>
    IO.eprintln "usage: eikonal (fastmarch | compare | benchmark)"
    return 2
  return 0
