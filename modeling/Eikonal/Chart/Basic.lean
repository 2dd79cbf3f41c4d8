import Eikonal.Json.Number
import Eikonal.NdArray
import Eikonal.Plane

/-! Charts: clouds of points, contour lines, stars, a title, a colour bar and a legend. What draws
them and writes them to files is a renderer, which is not part of the library and may refuse what
it is given. -/

namespace Eikonal

/-- A cloud of points; without colours it is grey. -/
structure Scatter where
  points : List (Vec Float)
  colours? : Option (List Float)

structure Chart where
  title : Text
  xLabel : String := "x"
  yLabel : String := "y"
  /-- The length of a unit along the y axis over one along the x axis. -/
  aspect : Float := 1
  /-- In drawing order. -/
  scatters : List Scatter
  /-- The times of the contour lines. -/
  levels? : Option (List Float) := none
  /-- The points marked with stars, one list for each time that stars are drawn. -/
  stars : List (List (Vec Float)) := []
  colourBar? : Option String := none
  legend : List String := []
  /-- The file that the chart is written to, as it was given. -/
  file? : Option Text := none
  /-- The name of that file in the working directory, if it was written there. -/
  written? : Option Text := none

/-- What draws charts. Every part of the drawing can be refused for reasons `ε`. -/
structure Renderer (ε : Type) where
  /-- Draws the bar of the colours from the least to the greatest one. -/
  colourBar : Float → Float → Except ε Unit
  /-- Draws contour lines at some times in triangles between points. -/
  contours : List (Vec Float) → List Float → Except ε Unit
  /-- Lays out a chart: its axes, its title and the ticks of its colour bar. -/
  layOut : Chart → Except ε Unit
  /-- Writes a file; the answer is its name in the working directory, if it is there. -/
  write : Text → Except ε (Option Text)

inductive ChartError (ε : Type) where
  /-- A cell that does not exist, or values that do not fit the cells. -/
  | outOfRange
  /-- The start cells have no parts. -/
  | notIterable
  | badId (why : NumberError)
  /-- An order that is a single cell or has several rows of cells. -/
  | notList
  /-- The colours do not fit the points. -/
  | colourCount
  /-- Points with coordinates that are not numbers span nothing. -/
  | notFinite
  /-- The points have no coordinates. -/
  | noCoordinates
  /-- The number of contour lines is no whole number. -/
  | badCount
  /-- There are not as many contour lines as given. -/
  | array (why : ArrayError)
  /-- The renderer refuses. -/
  | renderer (why : ε)
deriving DecidableEq, Repr

namespace Chart

/-- The line that tells where a chart went. -/
def savedLines (c : Chart) : List Text := (c.file?.map (Text.ofString "Saved: " ++ ·)).toList

variable {ε : Type}

/-- Draws a chart, and writes it to its file if it has one. -/
def drawn (r : Renderer ε) (c : Chart) : Except (ChartError ε) Chart := do
  (r.layOut c).mapError .renderer
  match c.file? with
  | none => return c
  | some name => return { c with written? := ← (r.write name).mapError .renderer }

end Chart

end Eikonal
