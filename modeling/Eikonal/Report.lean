import Eikonal.Binary64.Text
import Eikonal.Json.Text
import Eikonal.NdArray
import Eikonal.Plane
import Eikonal.Scalar.Float
import Eikonal.Scalar.Sum

/-! Printed reports: the lines that tell about a grid, a metric, a solve and its result. A line is a
list of UTF-16 units, since a title may hold any of them. -/

namespace Eikonal.Report

inductive Figure where
  /-- A whole number of any size. -/
  | whole (n : Int)
  | real (x : Float)
  /-- A truth value, which counts as one or zero. -/
  | truth (b : Bool)
  | word (t : Text)
  /-- A thing that is neither a number nor a text, as a report shows it. -/
  | other (shown : String)

inductive FigureError where
  /-- No number where one is needed. -/
  | notNumeric
  /-- A text where a number is to be written out. -/
  | text
  /-- A whole number or a quotient beyond the range of binary64. -/
  | tooLarge
deriving DecidableEq, Repr

namespace Figure

def text : Figure → Text
  | whole n => Text.ofString (toString n)
  | real x => Text.ofString (floatText x)
  | truth b => Text.ofString (if b then "True" else "False")
  | word t => t
  | other shown => Text.ofString shown

/-- A finite binary64 number, or the error that there is none. -/
def bounded (x : Binary64) : Except FigureError Float :=
  if x.isFinite then .ok x.toFloat else .error .tooLarge

/-- The whole number of a truth value. -/
def truthValue (b : Bool) : Int := if b then 1 else 0

/-- The nearest binary64 number. -/
def toFloat : Figure → Except FigureError Float
  | whole n => bounded (Binary64.ofCode (n < 0) (Binary64.codeOfRatio n.natAbs 1))
  | real x => .ok x
  | truth b => .ok (if b then 1 else 0)
  | word _ => .error .text
  | other _ => .error .notNumeric

def isPositive : Figure → Except FigureError Bool
  | whole n => .ok (0 < n)
  | real x => .ok (0 < x)
  | truth b => .ok b
  | word _ | other _ => .error .notNumeric

/-- The whole number that the figure is, if it is one. -/
def whole? : Figure → Option Int
  | whole n => some n
  | truth b => some (truthValue b)
  | _ => none

/-- A quotient. That of two whole numbers is rounded once. -/
def quotient (a b : Figure) : Except FigureError Float :=
  match a.whole?, b.whole? with
  | some m, some n =>
    bounded (Binary64.ofCode ((m < 0) != (n < 0)) (Binary64.codeOfRatio m.natAbs n.natAbs))
  | _, _ => do return (← a.toFloat) / (← b.toFloat)

end Figure

/-- Eighty times the same character. -/
def rule (c : Char) : Text := Text.ofString (String.ofList (List.replicate 80 c))

def banner (title : Text) : List Text := [[], rule '=', title, rule '=']

def subBanner (title : Text) : List Text := [[], rule '-', title, rule '-']

/-- The title of a part of a report. -/
def heading (title : String) : List Text := subBanner (Text.ofString title)

/-- A line that shows a figure after its name. -/
def figureLine (name : String) (f : Figure) : Text := Text.ofString s!"  {name}: " ++ f.text

/-- A text padded with blanks to a width. -/
def padded (width : Nat) (s : String) : String :=
  s ++ String.ofList (List.replicate (width - s.length) ' ')

/-- A line of texts, each padded to its width, with blanks between them. -/
def columns (cells : List (Nat × String)) : String :=
  " ".intercalate (cells.map fun c => padded c.1 c.2)

inductive BoxError where
  /-- It does not have two rows. -/
  | rows
  /-- It is a number, one of its rows is, or a coordinate is a list. -/
  | depth
  /-- A row lacks a coordinate. -/
  | short
  | figure (why : FigureError)
deriving DecidableEq, Repr

/-- The coordinate `k` in a row of a bounding box. -/
def coordinate (row : Nested Figure) (k : Nat) : Except BoxError Float :=
  match row with
  | .leaf _ => .error .depth
  | .node l =>
    match l[k]? with
    | some (.leaf f) => f.toFloat.mapError .figure
    | some (.node _) => .error .depth
    | none => .error .short

/-- The lower and the upper corner of a bounding box, which are its two rows. -/
def box : Nested Figure → Except BoxError (Vec Float × Vec Float)
  | .node [low, high] => do
    let left ← coordinate low 0
    let right ← coordinate high 0
    let bottom ← coordinate low 1
    let top ← coordinate high 1
    return (⟨left, bottom⟩, ⟨right, top⟩)
  | .node _ => .error .rows
  | .leaf _ => .error .depth

def boxLine (b : Vec Float × Vec Float) : String :=
  let t (x : Float) : String := fixedText 4 x
  s!"  Bounding box: [{t b.1.x}, {t b.2.x}] x [{t b.1.y}, {t b.2.y}]"

def grid (cells fewest most : Figure) (spacing : Float) (box? : Option (Vec Float × Vec Float)) :
    List Text :=
  heading "Grid Information" ++
    [figureLine "Cells" cells,
      figureLine "Neighbours per cell" fewest ++ Text.ofString " - " ++ most.text,
      Text.ofString s!"  Max neighbour spacing h = {fixedText 6 spacing}"] ++
    (box?.map fun b => Text.ofString (boxLine b)).toList

def metric (least greatest radius : Float) : List Text :=
  heading "Metric Information" ++ [
    s!"  Anisotropy ratio: min = {fixedText 4 least}, max = {fixedText 4 greatest}",
    s!"  Max proximity radius (local spacing * ratio) = {fixedText 6 radius}"].map Text.ofString

def solveStart (starts : Figure) : List Text :=
  subBanner (Text.ofString "Solving anisotropic eikonal equation from " ++ starts.text ++
    Text.ofString " start cell(s)...")

/-- The time that a solve took, in seconds, what it did, and the seconds for every cell. -/
def performanceLines (elapsed : Float) (iterations relaxations : Figure) (perCell? : Option Float) :
    List Text :=
  let perCellLine (t : Float) : Text :=
    Text.ofString s!"  Time per acceptance: {fixedText 2 (t * 1e6)} us"
  heading "Computation Performance" ++
    [Text.ofString s!"  Total solve time: {fixedText 4 elapsed} seconds",
      figureLine "Cells accepted in main loop" iterations,
      figureLine "Successful relaxations" relaxations] ++
    (perCell?.map perCellLine).toList

/-- The lines on performance for figures from outside. -/
def performance (elapsed iterations relaxations : Figure) : Except FigureError (List Text) := do
  let time ← elapsed.toFloat
  let perCell? ← if ← iterations.isPositive then some <$> elapsed.quotient iterations else pure none
  return performanceLines time iterations relaxations perCell?

/-- The lines on performance after a solve. -/
def solvePerformance (elapsed : Float) (iterations relaxations : Nat) : List Text :=
  performanceLines elapsed (.whole iterations) (.whole relaxations)
    (if 0 < iterations then some (elapsed / Float.ofNat iterations) else none)

def solution (values : List Float) : List Text :=
  let reached := values.filter Scalar.isFinite
  let line (name : String) (x : Float) : String := s!"  T_{name} = {fixedText 6 x}"
  let extent : List String :=
    match Scalar.least? reached, Scalar.greatest? reached with
    | some least, some greatest =>
      [line "min" least, line "max" greatest, line "mean" (Scalar.mean reached)]
    | _, _ => []
  heading "Solution Statistics" ++
    (s!"  Reached cells: {reached.length} / {values.length}" :: extent).map Text.ofString

/-- Errors against something that `label` names; only the finite ones count. -/
def errors (values : List Float) (label : Text) : List Text :=
  let finite := values.filter Scalar.isFinite
  let sizes := finite.map Float.abs
  let figures : List String :=
    match Scalar.greatest? sizes with
    | none => ["  No comparable cells"]
    | some greatest =>
      [s!"  Maximum absolute error: {fixedText 8 greatest}",
        s!"  Mean absolute error: {fixedText 8 (Scalar.mean sizes)}",
        s!"  RMS error: {fixedText 8 (Scalar.mean (finite.map Scalar.sq)).sqrt}"]
  subBanner (Text.ofString "Error vs " ++ label) ++ figures.map Text.ofString

/-- What the errors are measured against, unless something else is named. -/
def defaultLabel : Text := Text.ofString "reference"

def completion (message : Text) : List Text := banner message ++ [[]]

/-- The message of a completed run, unless another one is given. -/
def defaultCompletion : Text := Text.ofString "Test completed successfully!"

end Eikonal.Report
