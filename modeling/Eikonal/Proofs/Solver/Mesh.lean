import Eikonal.Proofs.Grid.Neighbours
import Eikonal.Solver.Mesh
import Mathlib.Logic.Relation

/-! The neighbour graph of a mesh. The mesh of any grid is undirected, so the cells that a set of
cells is linked to are its connected components. -/

namespace Eikonal

variable {α : Type} [Scalar α]

theorem sortByAngle_perm {κ : Type} (direction : κ → Vec α) (l : List κ) :
    (sortByAngle direction l).Perm l :=
  List.mergeSort_perm _ _

theorem NeighbourTable.row_counterClockwise (points : Array (Vec α)) (t : NeighbourTable)
    (c : Nat) : (t.counterClockwise points).row c =
      sortByAngle (fun d => points.getD d default - points.getD c default) (t.row c) := by
  unfold NeighbourTable.row counterClockwise
  by_cases hc : c < t.size
  · simp [hc]
  · simp [hc, sortByAngle]

namespace Mesh

/-- All neighbours are cells other than their own, are listed once, and are neighbours of each
other. -/
structure Undirected (m : Mesh α) : Prop where
  lt_left : ∀ {c d : Nat}, d ∈ m.around c → c < m.size
  lt_right : ∀ {c d : Nat}, d ∈ m.around c → d < m.size
  symm : ∀ {c d : Nat}, d ∈ m.around c → c ∈ m.around d
  ne : ∀ {c d : Nat}, d ∈ m.around c → d ≠ c
  nodup : ∀ c, (m.around c).Nodup

variable {memory : Memory}

/-- The mesh of a plane grid with links is that of their table. -/
theorem ofGrid_of_linked {g : CellGrid α} {links : List (List GivenId)} {t : NeighbourTable}
    (hplane : g.dimensions = 2) (hlinks : g.links? = some links)
    (h : CellGrid.linked g.size links = .ok t) : ofGrid memory g = .ok (ofTable g.points t) := by
  have ht : g.neighbours memory = .ok t := by
    unfold CellGrid.neighbours
    rw [hlinks]
    exact h
  rw [ofGrid, if_pos hplane, ht]
  rfl

theorem exists_table_of_ofGrid {g : CellGrid α} {m : Mesh α} (h : ofGrid memory g = .ok m) :
    ∃ t, g.neighbours memory = .ok t ∧ m = ofTable g.points t := by
  unfold ofGrid at h
  split at h
  · cases ht : g.neighbours memory with
    | error e =>
      rw [ht] at h
      cases h
    | ok t =>
      rw [ht] at h
      cases h
      exact ⟨t, rfl, rfl⟩
  · cases h

theorem points_of_ofGrid {g : CellGrid α} {m : Mesh α} (h : ofGrid memory g = .ok m) :
    m.points = g.points := by
  obtain ⟨t, -, rfl⟩ := exists_table_of_ofGrid h
  rfl

theorem size_of_ofGrid {g : CellGrid α} {m : Mesh α} (h : ofGrid memory g = .ok m) :
    m.size = g.size := by
  rw [size, points_of_ofGrid h]
  simp [CellGrid.points, CellGrid.size]

theorem around_ofTable (points : Array (Vec α)) (t : NeighbourTable) (c : Nat) :
    (ofTable points t).around c =
      sortByAngle (fun d => points.getD d default - points.getD c default) (t.row c) :=
  t.row_counterClockwise points c

/-- Counter-clockwise order rearranges every row. -/
theorem around_ofTable_perm (points : Array (Vec α)) (t : NeighbourTable) (c : Nat) :
    ((ofTable points t).around c).Perm (t.row c) := by
  rw [around_ofTable]
  exact sortByAngle_perm _ _

/-- The mesh of a grid is undirected. -/
theorem undirected_of_ofGrid {g : CellGrid α} {m : Mesh α} (h : ofGrid memory g = .ok m) :
    m.Undirected := by
  have hsize := size_of_ofGrid h
  obtain ⟨t, ht, rfl⟩ := exists_table_of_ofGrid h
  have hu := CellGrid.undirected_of_neighbours ht
  have hmem : ∀ {c d}, d ∈ (ofTable g.points t).around c ↔ d ∈ t.row c :=
    (around_ofTable_perm _ _ _).mem_iff
  constructor
  · intro c d hd
    rw [hsize]
    exact hu.lt (hu.symm (hmem.mp hd))
  · intro c d hd
    rw [hsize]
    exact hu.lt (hmem.mp hd)
  · intro c d hd
    exact hmem.mpr (hu.symm (hmem.mp hd))
  · intro c d hd
    exact hu.ne (hmem.mp hd)
  · intro c
    rw [(around_ofTable_perm _ _ c).nodup_iff]
    exact (hu.ascending c).imp Nat.ne_of_lt

theorem size_neighbours_of_ofGrid {g : CellGrid α} {m : Mesh α} (h : ofGrid memory g = .ok m) :
    m.neighbours.size = m.size := by
  rw [size_of_ofGrid h]
  obtain ⟨t, ht, rfl⟩ := exists_table_of_ofGrid h
  rw [← (CellGrid.undirected_of_neighbours ht).size]
  simp [ofTable, NeighbourTable.counterClockwise]

/-- The cells that are linked to one of the given cells by a path of neighbours. -/
def connected (m : Mesh α) (starts : List Nat) : Set Nat :=
  {c | ∃ s ∈ starts, Relation.ReflTransGen (fun a b => b ∈ m.around a) s c}

omit [Scalar α] in
theorem mem_connected_of_mem {m : Mesh α} {starts : List Nat} {c : Nat} (h : c ∈ starts) :
    c ∈ m.connected starts := ⟨c, h, .refl⟩

omit [Scalar α] in
theorem mem_connected_of_around {m : Mesh α} {starts : List Nat} {c d : Nat}
    (hc : c ∈ m.connected starts) (hd : d ∈ m.around c) : d ∈ m.connected starts := by
  obtain ⟨s, hs, hpath⟩ := hc
  exact ⟨s, hs, hpath.tail hd⟩

end Mesh

end Eikonal
