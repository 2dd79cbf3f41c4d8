import Eikonal.Json.Printer
import Eikonal.Json.Reader

/-! Notes on a solution: the number of cells and, where known, how the run was made. Their text is a
JSON object with a field for each of them. -/

namespace Eikonal

/-- Notes on a solution. A field that is not known is null. -/
structure SolutionMeta where
  cells : Json
  gridKind : Json := .null
  anisotropyRatio : Json := .null
  elapsed : Json := .null
  notes : Json := .null
  extra : Json := .null

inductive MetaError where
  | text (why : Json.ReadError)
  /-- No object, an object without the number of cells, or one with a field of another name. -/
  | fields
deriving DecidableEq, Repr

namespace SolutionMeta

/-- The notes with nothing known but the number of cells. -/
def ofCells (n : Int) : SolutionMeta := { cells := .int n }

/-- The names of the fields in the order in which they are written. -/
def names : List String :=
  ["n_cells", "grid_kind", "anisotropy_ratio", "elapsed", "notes", "extra"]

def values (m : SolutionMeta) : List Json :=
  [m.cells, m.gridKind, m.anisotropyRatio, m.elapsed, m.notes, m.extra]

def toJson (m : SolutionMeta) : Json := .object ((names.map Text.ofString).zip m.values)

/-- The notes that an object holds; the number of cells must be there. -/
def ofJson? : Json → Option SolutionMeta
  | .object fields =>
    let get (name : String) : Option Json := fields.lookup (Text.ofString name)
    if fields.all fun f => (names.map Text.ofString).contains f.1 then do
      return {
        cells := ← get "n_cells"
        gridKind := (get "grid_kind").getD .null
        anisotropyRatio := (get "anisotropy_ratio").getD .null
        elapsed := (get "elapsed").getD .null
        notes := (get "notes").getD .null
        extra := (get "extra").getD .null }
    else none
  | _ => none

def write (depth : Nat) (m : SolutionMeta) : Except Json.WriteError Text := m.toJson.write depth

def read (depth : Nat) (t : Text) : Except MetaError SolutionMeta :=
  match Json.read depth t with
  | .error e => .error (.text e)
  | .ok v =>
    match ofJson? v with
    | some m => .ok m
    | none => .error .fields

end SolutionMeta

end Eikonal
