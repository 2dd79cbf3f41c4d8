import Eikonal.Checkpoint.Archive

/-! Saved solutions in a container, which keeps archives under paths. An archive is put into it once
all that goes into the archive is known, so a solution that cannot be saved leaves the container as
it was. -/

namespace Eikonal

/-- A way to store archives under paths, with `σ` for all that is stored. -/
structure Container (σ α : Type) where
  put : σ → String → Archive α → σ
  get? : σ → String → Option (Archive α)

inductive ReloadError where
  | notFound
  | archive (why : LoadError)
deriving DecidableEq, Repr

namespace Container

variable {σ α : Type}

/-- Saves a solution under a path: what is stored afterwards, and why it failed if it did. -/
def save [Scalar α] (k : Container σ α) (limits : Json.Limits) (s : σ) (path : String)
    (g : CellGrid α) (solution : NdArray α) (starts : Json) (metric : NdArray α)
    (notes? : Option SolutionMeta) : σ × Except SaveError Unit :=
  match Archive.save limits.write g solution starts metric notes? with
  | .error e => (s, .error e)
  | .ok a => (k.put s path a, .ok ())

/-- Loads the solution that is saved under a path. -/
def load (k : Container σ α) (limits : Json.Limits) (s : σ) (path : String) :
    Except ReloadError (Saved α) :=
  match k.get? s path with
  | none => .error .notFound
  | some a => (a.load limits.read).mapError .archive

end Container

/-! ### Files -/

/-- The archives that are stored, by the names of their files. -/
def Files (α : Type) := String → Option (Archive α)

namespace Files

variable {α : Type}

/-- No file at all. -/
def empty : Files α := fun _ => none

/-- The files with an archive in the file of a name, in place of what is there. -/
def write (files : Files α) (name : String) (a : Archive α) : Files α :=
  fun n => if n = name then some a else files n

/-- The name of the file that an archive goes into: it ends in `.npz`, which is appended where it is
missing. -/
def archiveName (path : String) : String :=
  if path.endsWith ".npz" then path else path ++ ".npz"

/-- Files as a container. A path to load from is taken as it is. -/
def container : Container (Files α) α where
  put files path := files.write (archiveName path)
  get? files path := files path

end Files

end Eikonal
