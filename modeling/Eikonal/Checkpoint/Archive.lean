import Std.Data.TreeSet
import Eikonal.Checkpoint.Meta
import Eikonal.Grid.Basic
import Eikonal.Json.Number
import Eikonal.Metric.Field

/-! Saved solutions. An archive holds named arrays and a text; saving fills one from a solution and
the input that it came from, and loading gives both back. -/

namespace Eikonal

/-- The entries of an archive, each of which may be missing. -/
structure Archive (α : Type) where
  solution? : Option (NdArray α) := none
  startCells? : Option (NdArray Int) := none
  metric? : Option (NdArray α) := none
  centroids? : Option (NdArray α) := none
  /-- The number of cells; no number if it was stored as an array with axes. -/
  cells? : Option (Except NumberError Int) := none
  /-- The text of the notes; empty if there is none. -/
  notes : Text := []

structure Saved (α : Type) where
  solution : NdArray α
  startCells : NdArray Int
  metric : NdArray α
  centroids : NdArray α
  notes : SolutionMeta

inductive SaveError where
  | shape (cells : Nat) (got : List Nat)
  | metric (why : MetricError)
  /-- The start cells have no parts. -/
  | notIterable
  | badId (why : NumberError)
  | notes (why : Json.WriteError)
deriving DecidableEq, Repr

def SaveError.message? : SaveError → Option String
  | shape n got =>
    some s!"Solution must have shape {shapeText [n]}, got {shapeText (got.map Int.ofNat)}"
  | metric e => some e.message
  | notIterable | badId _ | notes _ => none

inductive LoadError where
  | missing
  | cells (why : NumberError)
  | notes (why : MetaError)
deriving DecidableEq, Repr

namespace Archive

/-- Whole numbers in ascending order, each of them once. -/
def distinct (l : List Int) : List Int := (Std.TreeSet.ofList l).toList

/-- The start cells that a value names, ascending and each of them once. Unlike a solve, an archive
takes every part that stands for a whole number. -/
def startIds (v : Json) : Except SaveError (List Int) :=
  match v.parts? with
  | none => .error .notIterable
  | some parts =>
    match parts.mapM Json.toInt with
    | .error e => .error (.badId e)
    | .ok ids => if ids.all fitsWord then .ok (distinct ids) else .error (.badId .unbounded)

variable {α : Type}

/-- The array of all centroids. -/
def centroidArray (g : CellGrid α) : NdArray α :=
  { shape := [g.size, g.dimensions], items := g.centroids.flatMap id }

/-- Saves a solution. The checks run in the order solution, metric, start cells, notes. Without
notes the number of cells is noted. -/
def save [Scalar α] (depth : Nat) (g : CellGrid α) (solution : NdArray α) (starts : Json)
    (metric : NdArray α) (notes? : Option SolutionMeta) : Except SaveError (Archive α) :=
  if solution.shape = [g.size] then
    match MetricField.ofArray g.size metric with
    | .error e => .error (.metric e)
    | .ok field =>
      match startIds starts with
      | .error e => .error e
      | .ok ids =>
        match (notes?.getD (.ofCells g.size)).write depth with
        | .error e => .error (.notes e)
        | .ok notes =>
          .ok {
            solution? := some solution
            startCells? := some (.ofList ids)
            metric? := some (MetricField.toArray field)
            centroids? := some (centroidArray g)
            cells? := some (.ok g.size)
            notes }
  else .error (.shape g.size solution.shape)

/-- The text of the notes as an archive keeps it: NULs at its end are lost. -/
def keptNotes (a : Archive α) : Text := (a.notes.reverse.dropWhile (· == 0)).reverse

/-- Loads an archive. Without a text of notes the number of cells is noted, which is the length of
the solution if it was not stored. -/
def load (depth : Nat) (a : Archive α) : Except LoadError (Saved α) :=
  match a.solution?, a.startCells?, a.metric?, a.centroids? with
  | some solution, some startCells, some metric, some centroids =>
    match a.cells?.getD (.ok solution.items.size) with
    | .error e => .error (.cells e)
    | .ok n =>
      if a.keptNotes.isEmpty then
        .ok { solution, startCells, metric, centroids, notes := .ofCells n }
      else
        match SolutionMeta.read depth a.keptNotes with
        | .error e => .error (.notes e)
        | .ok notes => .ok { solution, startCells, metric, centroids, notes }
  | _, _, _, _ => .error .missing

end Archive

end Eikonal
