import Eikonal.Front
import Eikonal.Metric.Field
import Eikonal.Solver.Mesh
import Eikonal.Stencil

/-! Tentative values: the arrival at a cell from the neighbours of it that stand on the accepted
front. The least triangle update counts; line updates step in where no triangle gives a value. -/

namespace Eikonal

/-- A mesh with a metric tensor for every cell. -/
structure Medium (α : Type) where
  mesh : Mesh α
  metric : MetricField α

/-- The consecutive pairs of a list, the last item closing up with the first. -/
def cyclicPairs {κ : Type} : List κ → List (κ × κ)
  | a :: b :: rest => (a :: b :: rest).zip (b :: rest ++ [a])
  | _ => []

namespace Medium

variable {α : Type} [Scalar α]

def point (m : Medium α) (c : Nat) : Vec α := m.mesh.point c

def around (m : Medium α) (c : Nat) : List Nat := m.mesh.around c

def tensor (m : Medium α) (c : Nat) : Tensor α := m.metric.getD c default

/-- The line update of cell `c` from cell `j`, given the values `u`. -/
def fromLine (m : Medium α) (u : Array α) (c j : Nat) : α :=
  Stencil.line (m.point c) (m.point j) (u.getD j Scalar.inf) (m.tensor c)

/-- The triangle update of cell `c` from the cells `j` and `k`, given the values `u`; infinity if
they bound no wedge. -/
def fromTriangle (m : Medium α) (u : Array α) (c j k : Nat) : α :=
  if j != k && Stencil.isWedge (m.point c) (m.point j) (m.point k) then
    Stencil.triangle (m.point c) (m.point j) (u.getD j Scalar.inf) (m.point k)
      (u.getD k Scalar.inf) (m.tensor c)
  else Scalar.inf

/-- The neighbours of a cell that stand on the front. -/
def upwind (m : Medium α) (front : Front) (c : Nat) : List Nat :=
  (m.around c).filter fun d => front.contains d

/-- The consecutive neighbours of a cell that both stand on the front. -/
def upwindPairs (m : Medium α) (front : Front) (c : Nat) : List (Nat × Nat) :=
  (cyclicPairs (m.around c)).filter fun p => front.contains p.1 && front.contains p.2

/-- The value of a cell from the front, if the front reaches it. -/
def tentative? (m : Medium α) (front : Front) (u : Array α) (c : Nat) : Option α :=
  let byTriangle := Scalar.leastOf ((m.upwindPairs front c).map fun p => m.fromTriangle u c p.1 p.2)
  let best :=
    if Scalar.eq byTriangle Scalar.inf then Scalar.leastOf ((m.upwind front c).map (m.fromLine u c))
    else byTriangle
  if Scalar.eq best Scalar.inf then none else some best

end Medium

end Eikonal
