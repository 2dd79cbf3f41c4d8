import Eikonal.Grid.Cartesian
import Eikonal.Proofs.Grid.Neighbours
import Eikonal.Scalar.Float

/-! Rectangular grids. The cells are the active positions, numbered row by row; without a mask the
cell `k` of a grid with `nx` columns stands in row `k / nx` and column `k % nx`. Cells share a node,
and so are neighbours, if and only if neither their rows nor their columns differ by more than
one. -/

namespace Eikonal.CellGrid

/-! ### Rows and columns -/

section Positions

variable {nx ny i i' j j' : Nat} {mask : Array Bool}

theorem positions_eq (hx : 0 < nx) (ny : Nat) :
    ((List.range ny).flatMap fun j => (List.range nx).map fun i => (j, i)) =
      (List.range (ny * nx)).map fun k => (k / nx, k % nx) := by
  induction ny with
  | zero => simp
  | succ ny ih =>
    have hrow : ∀ i < nx, ((ny * nx + i) / nx, (ny * nx + i) % nx) = (ny, i) := by
      intro i hi
      rw [Nat.mul_comm, Nat.mul_add_div hx, Nat.mul_add_mod, Nat.div_eq_of_lt hi,
        Nat.mod_eq_of_lt hi, Nat.add_zero]
    rw [List.range_succ, List.flatMap_append, ih, Nat.succ_mul, List.range_add, List.map_append,
      List.flatMap_singleton, List.map_map]
    congr 1
    exact List.map_congr_left fun i hi => (hrow i (List.mem_range.mp hi)).symm

theorem activePositions_replicate (hx : 0 < nx) (ny : Nat) :
    activePositions nx ny (Array.replicate (ny * nx) true) =
      (List.range (ny * nx)).map fun k => (k / nx, k % nx) := by
  unfold activePositions
  rw [positions_eq hx, List.filter_eq_self]
  intro p hp
  obtain ⟨k, hk, rfl⟩ := List.mem_map.mp hp
  have hk : k < ny * nx := List.mem_range.mp hk
  simp [Array.getD, Nat.div_add_mod', hk]

theorem mem_activePositions :
    (j, i) ∈ activePositions nx ny mask ↔ j < ny ∧ i < nx ∧ mask.getD (j * nx + i) false := by
  simp [activePositions, and_assoc]

/-- Positions stand in the order of their places. -/
theorem pairwise_activePositions (hx : 0 < nx) (ny : Nat) (mask : Array Bool) :
    (activePositions nx ny mask).Pairwise fun p q => p.1 * nx + p.2 < q.1 * nx + q.2 := by
  unfold activePositions
  rw [positions_eq hx]
  refine List.Pairwise.filter _ (List.pairwise_map.mpr ?_)
  simp only [Nat.div_add_mod']
  exact List.pairwise_lt_range

theorem nodup_activePositions (hx : 0 < nx) (ny : Nat) (mask : Array Bool) :
    (activePositions nx ny mask).Nodup := by
  refine (pairwise_activePositions hx ny mask).imp fun {p q} h => ?_
  rintro rfl
  exact Nat.lt_irrefl _ h

theorem cell_lt (hi : i < nx) (hj : j < ny) : j * nx + i < ny * nx := by
  calc j * nx + i < j * nx + nx := Nat.add_lt_add_left hi _
    _ = (j + 1) * nx := (Nat.succ_mul j nx).symm
    _ ≤ ny * nx := Nat.mul_le_mul_right nx hj

theorem mem_corners {n : Int} :
    n ∈ corners nx j i ↔ ∃ r s : Nat, (r = j ∨ r = j + 1) ∧ (s = i ∨ s = i + 1) ∧
      n = ((r * (nx + 1) + s : Nat) : Int) := by
  simp only [corners, List.mem_cons, List.not_mem_nil, or_false]
  constructor
  · rintro (rfl | rfl | rfl | rfl)
    · exact ⟨j, i, .inl rfl, .inl rfl, by push_cast; rfl⟩
    · exact ⟨j, i + 1, .inl rfl, .inr rfl, by push_cast; rfl⟩
    · exact ⟨j + 1, i + 1, .inr rfl, .inr rfl, by push_cast; rfl⟩
    · exact ⟨j + 1, i, .inr rfl, .inl rfl, by push_cast; rfl⟩
  · rintro ⟨r, s, rfl | rfl, rfl | rfl, rfl⟩ <;> push_cast <;> simp

/-- A node stands in one row and one column. -/
theorem node_inj {w r r' s s' : Nat} (hs : s < w) (hs' : s' < w)
    (h : r * w + s = r' * w + s') : r = r' ∧ s = s' := by
  have hw : 0 < w := Nat.zero_lt_of_lt hs
  have hdiv := congrArg (· / w) h
  have hmod := congrArg (· % w) h
  simp only [Nat.mul_comm _ w, Nat.mul_add_div hw, Nat.mul_add_mod, Nat.div_eq_of_lt hs,
    Nat.div_eq_of_lt hs', Nat.mod_eq_of_lt hs, Nat.mod_eq_of_lt hs', Nat.add_zero] at hdiv hmod
  exact ⟨hdiv, hmod⟩

/-- Cells share a node if they touch, be it at a corner. -/
theorem shareNode_corners (hi : i < nx) (hi' : i' < nx) :
    shareNode (corners nx j i) (corners nx j' i') ↔
      (j ≤ j' + 1 ∧ j' ≤ j + 1) ∧ i ≤ i' + 1 ∧ i' ≤ i + 1 := by
  simp only [shareNode, List.any_eq_true, List.contains_iff_mem, mem_corners]
  constructor
  · rintro ⟨n, ⟨r, s, hr, hs, rfl⟩, r', s', hr', hs', h⟩
    obtain ⟨rfl, rfl⟩ := node_inj (by omega) (by omega) (Int.ofNat_inj.mp h)
    omega
  · rintro ⟨⟨h1, h2⟩, h3, h4⟩
    exact ⟨_, ⟨max j j', max i i', by omega, by omega, rfl⟩, max j j', max i i', by omega,
      by omega, rfl⟩

end Positions

/-! ### Masks -/

section Masked

variable {α : Type} [Scalar α] {nx ny i i' j j' c d : Nat} {lx ly : α} {mask : Array Bool}
  {mask? : Option (NdArray Bool)} {memory : Memory} {g : CellGrid α} {t : NeighbourTable}

theorem size_ofMask :
    (ofMask nx ny lx ly mask).size = (activePositions nx ny mask).length := by
  simp [ofMask, size]

theorem nodes_ofMask (hc : (activePositions nx ny mask)[c]? = some (j, i)) :
    (ofMask nx ny lx ly mask).cellNodes.getD c [] = corners nx j i := by
  simp [ofMask, Array.getD_eq_getD_getElem?, hc]

/-- Cells are neighbours if they touch, be it at a corner. -/
theorem mem_row_ofMask (h : (ofMask nx ny lx ly mask).neighbours memory = .ok t)
    (hc : (activePositions nx ny mask)[c]? = some (j, i))
    (hd : (activePositions nx ny mask)[d]? = some (j', i')) :
    d ∈ t.row c ↔ c ≠ d ∧ (j ≤ j' + 1 ∧ j' ≤ j + 1) ∧ i ≤ i' + 1 ∧ i' ≤ i + 1 := by
  obtain ⟨hcs, hcp⟩ := List.getElem?_eq_some_iff.mp hc
  obtain ⟨hds, hdp⟩ := List.getElem?_eq_some_iff.mp hd
  have hi := (mem_activePositions.mp (hcp ▸ List.getElem_mem hcs)).2.1
  have hi' := (mem_activePositions.mp (hdp ▸ List.getElem_mem hds)).2.1
  rw [mem_row_of_nodes rfl h, size_ofMask, nodes_ofMask hc, nodes_ofMask hd,
    shareNode_corners hi hi']
  simp only [hcs, hds, true_and]

/-- The activity of the positions, row by row. Without a mask every position is active. -/
def activity (nx ny : Nat) : Option (NdArray Bool) → Array Bool
  | none => Array.replicate (ny * nx) true
  | some m => m.items

theorem activity_eq_true (hj : j < ny) (hi : i < nx) :
    (activity nx ny mask?).getD (j * nx + i) false ↔
      ∀ m ∈ mask?, m.items.getD (j * nx + i) false := by
  cases mask? with
  | none => simp [activity, Array.getD, cell_lt hi hj]
  | some m => simp [activity]

theorem nodup_index (hx : 0 < nx) :
    ((activePositions nx ny mask).map fun p => ((p.1 : Int), (p.2 : Int))).Nodup := by
  refine List.pairwise_map.mpr ((nodup_activePositions hx ny mask).imp fun {p q} hne h => hne ?_)
  rw [Prod.mk.injEq, Int.ofNat_inj, Int.ofNat_inj] at h
  exact Prod.ext h.1 h.2

/-- The index lists the active positions. -/
theorem mem_index {p : Int × Int} :
    p ∈ (activePositions nx ny (activity nx ny mask?)).map (fun q => ((q.1 : Int), (q.2 : Int))) ↔
      ∃ j < ny, ∃ i < nx, p = ((j : Int), (i : Int)) ∧
        ∀ m ∈ mask?, m.items.getD (j * nx + i) false := by
  rw [List.mem_map]
  constructor
  · rintro ⟨⟨j, i⟩, hp, rfl⟩
    obtain ⟨hj, hi, hactive⟩ := mem_activePositions.mp hp
    exact ⟨j, hj, i, hi, rfl, (activity_eq_true hj hi).mp hactive⟩
  · rintro ⟨j, hj, i, hi, rfl, hactive⟩
    exact ⟨(j, i), mem_activePositions.mpr ⟨hj, hi, (activity_eq_true hj hi).mpr hactive⟩, rfl⟩

theorem cartesian_eq_ofMask (h : cartesian memory nx ny lx ly mask? = .ok g) :
    0 < nx ∧ g = ofMask nx ny lx ly (activity nx ny mask?) := by
  have hrest : ∀ mask : Array Bool, (do
      if (nx : Int) = 0 || (ny : Int) = 0 then throw .emptyAxis
      return ofMask (nx : Int).toNat (ny : Int).toNat lx ly mask :
        Except GridError (CellGrid α)) = .ok g → 0 < nx ∧ g = ofMask nx ny lx ly mask := by
    intro mask hg
    split at hg
    · cases hg
    · rename_i hzero
      cases hg
      simp only [Bool.or_eq_true, decide_eq_true_eq, not_or] at hzero
      exact ⟨by omega, rfl⟩
  unfold cartesian at h
  cases mask? with
  | none =>
    obtain ⟨-, -, h⟩ := bind_eq_ok h
    exact hrest _ h
  | some m =>
    dsimp only at h
    split at h
    · cases h
    · exact hrest _ h

/-- Every mask of the shape of the layout gives a grid. -/
theorem exists_cartesian_of_shape (hx : 0 < nx) (hy : 0 < ny) {m : NdArray Bool}
    (hm : m.shape = [ny, nx]) : ∃ g, cartesian memory nx ny lx ly (some m) = .ok g := by
  have hshape : ¬m.shape.map Int.ofNat ≠ [(ny : Int), (nx : Int)] := by
    rw [hm]
    exact not_not.mpr rfl
  have hzero : ¬((nx : Int) = 0 || (ny : Int) = 0) := by
    simp only [Bool.or_eq_true, decide_eq_true_eq]
    omega
  refine ⟨ofMask nx ny lx ly m.items, ?_⟩
  unfold cartesian
  dsimp only
  rw [if_neg hshape]
  show (if _ then _ else _) = _
  rw [if_neg hzero]
  rfl

/-- The nodes of a grid fit in memory if those of the whole layout do. -/
theorem exists_neighbours_ofMask
    (h : 8 * ((ny + 1) * (nx + 1) + 1) ≤ memory.bytes) :
    ∃ t, (ofMask nx ny lx ly mask).neighbours memory = .ok t := by
  refine exists_neighbours_of_nodes rfl fun l hl n hn => ?_
  have hl : l ∈ (activePositions nx ny mask).map fun p => corners nx p.1 p.2 := by
    simpa [ofMask] using hl
  obtain ⟨⟨j, i⟩, hp, rfl⟩ := List.mem_map.mp hl
  obtain ⟨hj, hi, -⟩ := mem_activePositions.mp hp
  obtain ⟨r, s, hr, hs, rfl⟩ := mem_corners.mp hn
  have hlt : r * (nx + 1) + s < (ny + 1) * (nx + 1) := cell_lt (by omega) (by omega)
  omega

/-- The cells of a rectangular grid are its active positions, and two of them are neighbours exactly
if neither their rows nor their columns differ by more than one. So the ends of rows that follow
each other, the last column in one row and the first column in the other, are neighbours only in a
layout of at most two columns. -/
theorem neighbours_iff_touching (hx : 0 < nx) (hy : 0 < ny) :
    (∀ m, mask? = some m → m.shape = [ny, nx] →
      ∃ g, cartesian memory nx ny lx ly mask? = .ok g) ∧
      ∀ g, cartesian memory nx ny lx ly mask? = .ok g → ∃ index : List (Int × Int),
        g.index? = some index ∧ index.length = g.size ∧ index.Nodup ∧
        (∀ p, p ∈ index ↔ ∃ j < ny, ∃ i < nx, p = ((j : Int), (i : Int)) ∧
          ∀ m ∈ mask?, m.items.getD (j * nx + i) false) ∧
        (8 * ((ny + 1) * (nx + 1) + 1) ≤ memory.bytes → ∃ t, g.neighbours memory = .ok t) ∧
        ∀ t, g.neighbours memory = .ok t →
          (∀ c d, d ∈ t.row c → c < index.length ∧ d < index.length) ∧
          ∀ c d j i j' i', index[c]? = some (j, i) → index[d]? = some (j', i') →
            (c ≠ d → (d ∈ t.row c ↔ (j - j').natAbs ≤ 1 ∧ (i - i').natAbs ≤ 1)) ∧
            ((j - j').natAbs = 1 → (i - i').natAbs + 1 = nx → (d ∈ t.row c ↔ nx ≤ 2)) := by
  refine ⟨fun m hm hshape => hm ▸ exists_cartesian_of_shape hx hy hshape, fun g hg => ?_⟩
  obtain ⟨-, rfl⟩ := cartesian_eq_ofMask hg
  refine ⟨_, rfl, ?_, nodup_index hx, fun p => mem_index, exists_neighbours_ofMask,
    fun t ht => ⟨fun c d hd => ?_, fun c d j i j' i' hc hd => ?_⟩⟩
  · rw [List.length_map, size_ofMask]
  · have hu := undirected_of_neighbours ht
    rw [size_ofMask] at hu
    rw [List.length_map]
    exact ⟨hu.lt (hu.symm hd), hu.lt hd⟩
  · rw [List.getElem?_map, Option.map_eq_some_iff] at hc hd
    obtain ⟨⟨a, b⟩, hc, h⟩ := hc
    cases h
    obtain ⟨⟨a', b'⟩, hd, h⟩ := hd
    cases h
    rw [mem_row_ofMask ht hc hd]
    refine ⟨fun hne => ?_, fun hrow hcolumn => ?_⟩
    · rw [and_iff_right hne]
      omega
    · have hne : c ≠ d := by
        rintro rfl
        cases hc.symm.trans hd
        omega
      rw [and_iff_right hne]
      omega

/-- Three columns and two rows, of which the middle of the second row is left out. -/
def notchMask : NdArray Bool := { shape := [2, 3], items := #[true, true, true, true, false, true] }

def notchGrid : CellGrid Float := ofMask 3 2 1 1 notchMask.items

theorem neighbours_iff_touching_sample :
    cartesian sampleMemory (3 : Nat) (2 : Nat) (1 : Float) 1 (some notchMask) = .ok notchGrid ∧
      notchGrid.index? = some [(0, 0), (0, 1), (0, 2), (1, 0), (1, 2)] ∧
      ∃ t, notchGrid.neighbours sampleMemory = .ok t ∧ 4 ∈ t.row 1 ∧ 4 ∉ t.row 0 ∧ 3 ∉ t.row 2 := by
  have hg : cartesian sampleMemory (3 : Nat) (2 : Nat) (1 : Float) 1 (some notchMask) =
    .ok notchGrid := rfl
  have hi : notchGrid.index? = some [(0, 0), (0, 1), (0, 2), (1, 0), (1, 2)] := rfl
  obtain ⟨index, hindex, -, -, -, hreturns, htable⟩ :=
    (neighbours_iff_touching (by decide) (by decide)).2 notchGrid hg
  obtain rfl := Option.some.inj (hi.symm.trans hindex)
  obtain ⟨t, ht⟩ := hreturns (by decide)
  obtain ⟨-, hlinks⟩ := htable t ht
  exact ⟨hg, hi, t, ht, ((hlinks 1 4 0 1 1 2 rfl rfl).1 (by decide)).mpr (by decide),
    ((hlinks 0 4 0 0 1 2 rfl rfl).1 (by decide)).not.mpr (by decide),
    ((hlinks 2 3 0 2 1 0 rfl rfl).2 (by decide) (by decide)).not.mpr (by decide)⟩

/-- Two columns and two rows, of which one diagonal is active. -/
def diagonalMask : NdArray Bool := { shape := [2, 2], items := #[false, true, true, false] }

/-- The last cell of a row touches the first cell of the next one in a layout of two columns. -/
theorem ends_of_rows_touch :
    ∃ g t, cartesian sampleMemory 2 2 (1 : Float) 1 (some diagonalMask) = .ok g ∧
      g.index? = some [(0, 1), (1, 0)] ∧ g.neighbours sampleMemory = .ok t ∧ 1 ∈ t.row 0 := by
  obtain ⟨t, ht⟩ :
      ∃ t, (ofMask 2 2 (1 : Float) 1 diagonalMask.items).neighbours sampleMemory = .ok t :=
    exists_neighbours_ofMask (by decide)
  exact ⟨_, t, rfl, rfl, ht, (mem_row_ofMask ht rfl rfl).mpr (by decide)⟩

end Masked

/-! ### Without a mask -/

section Unmasked

variable {α : Type} [Scalar α] {nx ny c d : Nat} {lx ly : α} {memory : Memory} {g : CellGrid α}

/-- The grid of all positions of a layout. -/
def unmasked (nx ny : Nat) (lx ly : α) : CellGrid α :=
  ofMask nx ny lx ly (Array.replicate (ny * nx) true)

theorem cartesian_eq_unmasked (h : cartesian memory nx ny lx ly none = .ok g) :
    0 < nx ∧ g = unmasked nx ny lx ly :=
  cartesian_eq_ofMask h

variable (hx : 0 < nx)
include hx

theorem size_unmasked : (unmasked nx ny lx ly).size = ny * nx := by
  simp [unmasked, ofMask, size, activePositions_replicate hx]

theorem point_unmasked (hc : c < ny * nx) : (unmasked nx ny lx ly).points.getD c default =
    ⟨(Scalar.natCast (c % nx) + Scalar.decimal 5 1) * (lx / Scalar.natCast nx),
      (Scalar.natCast (c / nx) + Scalar.decimal 5 1) * (ly / Scalar.natCast ny)⟩ := by
  simp [unmasked, ofMask, points, planePoint, activePositions_replicate hx, Array.getD, hc]

theorem index_unmasked : (unmasked nx ny lx ly).index? =
      some ((List.range (ny * nx)).map fun k =>
        (((k / nx : Nat) : Int), ((k % nx : Nat) : Int))) := by
  simp [unmasked, ofMask, activePositions_replicate hx]

/-- Cells are neighbours if they touch, be it at a corner. -/
theorem mem_row_unmasked {t : NeighbourTable}
    (h : (unmasked nx ny lx ly).neighbours memory = .ok t) :
    d ∈ t.row c ↔ (c < ny * nx ∧ d < ny * nx ∧ c ≠ d) ∧
      (c / nx ≤ d / nx + 1 ∧ d / nx ≤ c / nx + 1) ∧ c % nx ≤ d % nx + 1 ∧ d % nx ≤ c % nx + 1 := by
  have hsize : (unmasked nx ny lx ly).size = ny * nx := size_unmasked hx
  have hposition : ∀ {k}, k < ny * nx →
      (activePositions nx ny (Array.replicate (ny * nx) true))[k]? = some (k / nx, k % nx) := by
    intro k hk
    rw [activePositions_replicate hx, List.getElem?_map, List.getElem?_range hk, Option.map_some]
  have hu := undirected_of_neighbours h
  rw [hsize] at hu
  constructor
  · intro hd
    have hc := hu.lt (hu.symm hd)
    obtain ⟨hne, htouch⟩ := (mem_row_ofMask h (hposition hc) (hposition (hu.lt hd))).mp hd
    exact ⟨⟨hc, hu.lt hd, hne⟩, htouch⟩
  · rintro ⟨⟨hc, hd, hne⟩, htouch⟩
    exact (mem_row_ofMask h (hposition hc) (hposition hd)).mpr ⟨hne, htouch⟩

end Unmasked

end Eikonal.CellGrid
