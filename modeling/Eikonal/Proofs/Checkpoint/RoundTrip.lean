import Eikonal.Checkpoint.Container
import Eikonal.Proofs.Json.RoundTrip
import Eikonal.Proofs.Metric.Field
import Eikonal.Scalar.Float

/-! Loading undoes saving. The entries of an archive come back one by one: the start cells in order,
the metric as the array of its field, the notes from their text. What was loaded can be saved again
and gives the same archive. Of the container only one thing is assumed, that it gives back what was
put under the path. -/

namespace Eikonal

namespace SolutionMeta

/-- Whether all fields hold proper values. -/
def isProper (m : SolutionMeta) : Bool := m.values.all Json.isProper

end SolutionMeta

namespace Archive

variable {α : Type}

/-! ### Start cells -/

end Archive

/-! ### Archives -/

variable {α : Type}

/-- The archive of a solution with its input, for a grid of that many cells. -/
def Saved.archive (s : Saved α) (cells : Nat) : Archive α :=
  { solution? := some s.solution
    startCells? := some s.startCells
    metric? := some s.metric
    centroids? := some s.centroids
    cells? := some (.ok cells)
    notes := s.notes.toJson.print }

namespace Archive

section Save

variable [Scalar α] {depth : Nat} {g : CellGrid α} {solution metric : NdArray α}
  {field : MetricField α} (ids : List Int) (notes? : Option SolutionMeta)

end Save

end Archive

namespace Container

variable {σ : Type} {k : Container σ α} {limits : Json.Limits} {s : σ} {path : String}

variable [Scalar α] {g : CellGrid α} {solution metric : NdArray α} {field : MetricField α}
  {starts : Json} {notes? : Option SolutionMeta}

section Files

variable {α : Type} {files : Files α} {path : String} {a : Archive α}

end Files

/-! ### Loading what was saved -/

def sampleGrid : CellGrid Float :=
  { dimensions := 2, centroids := #[#[0, 0], #[1, 0], #[5, 5]], links? := some [[.ok 1], [], []] }

def sampleMetric : NdArray Float :=
  { shape := [12], items := #[1, 0, 0, 1, 9, 0, 0, 9, 2, 1, 1, 2] }

def sampleField : MetricField Float := #[⟨1, 0, 0, 1⟩, ⟨9, 0, 0, 9⟩, ⟨2, 1, 1, 2⟩]

/-- Arrays one inside the other, the innermost empty. -/
def nested : Nat → Json
  | 0 => .array []
  | n + 1 => .array [nested n]

end Container

end Eikonal
