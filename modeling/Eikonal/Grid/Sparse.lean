import Std.Data.TreeMap

/-! Sparse tables of whole numbers. A table is a list of entries with a row and a column each;
entries in the same place add up, and a place without entries holds zero. -/

namespace Eikonal

/-- A number in a row and a column. -/
structure SparseEntry (ρ κ : Type) where
  row : ρ
  column : κ
  number : Nat

/-- A sparse table. -/
abbrev SparseTable (ρ κ : Type) := List (SparseEntry ρ κ)

namespace SparseTable

variable {ρ κ τ : Type}

/-- The table with its rows and columns exchanged. -/
def transpose (t : SparseTable ρ κ) : SparseTable κ ρ := t.map fun e => ⟨e.column, e.row, e.number⟩

/-- The entries of every row. -/
def rows [Ord ρ] (t : SparseTable ρ κ) : Std.TreeMap ρ (SparseTable ρ κ) :=
  t.foldr (fun e m => m.insert e.row (e :: m.getD e.row [])) ∅

/-- The product of two tables: every entry of the one meets those of the other in the row that its
column names. -/
def mul [Ord κ] (s : SparseTable ρ κ) (t : SparseTable κ τ) : SparseTable ρ τ :=
  let rows := rows t
  s.flatMap fun e => (rows.getD e.column []).map fun f => ⟨e.row, f.column, e.number * f.number⟩

/-- The numbers in the columns of a table, each column with its entries added up. -/
def columnSums [Ord κ] (t : SparseTable ρ κ) : Std.TreeMap κ Nat :=
  t.foldr (fun e m => m.insert e.column (e.number + m.getD e.column 0)) ∅

end SparseTable

end Eikonal
