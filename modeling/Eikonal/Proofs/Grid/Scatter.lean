import Eikonal.Proofs.Front
import Eikonal.Proofs.Grid.Cartesian
import Eikonal.Proofs.NdArray

/-! Values of cells in rows and columns. The cells of a rectangular grid stand in the active
positions row by row. Their values are put there, each in its own position, so that reading them
back gives the same values. -/

namespace Eikonal

variable {α : Type}

/-- The item in a row and a column of a table; indices below zero count from the end. -/
def NdArray.itemAt? (t : NdArray α) (p : Int × Int) : Option α :=
  match t.shape with
  | [ny, nx] => (CellGrid.slot? ny nx p).bind fun k => t.items[k]?
  | _ => none

namespace CellGrid

/-- The values in the positions of the cells, in the order of the cells. -/
def gather (g : CellGrid α) (t : NdArray α) : Option (List α) :=
  g.index?.bind fun index => index.mapM t.itemAt?

/-! ### Writes -/

/-- An array after some writes, each of a value to a place. -/
def writeAll (t : Array α) (writes : List (Nat × α)) : Array α :=
  writes.foldl (fun t p => t.setIfInBounds p.1 p.2) t

section Writes

variable {t : Array α} {writes : List (Nat × α)} {k : Nat} {x : α}

theorem size_writeAll : (writeAll t writes).size = t.size := by
  unfold writeAll
  induction writes generalizing t with
  | nil => rfl
  | cons p writes ih => rw [List.foldl_cons, ih, Array.size_setIfInBounds]

theorem getElem?_writeAll_of_notMem (h : k ∉ writes.map Prod.fst) :
    (writeAll t writes)[k]? = t[k]? := by
  unfold writeAll
  induction writes generalizing t with
  | nil => rfl
  | cons p writes ih =>
    rw [List.map_cons, List.mem_cons, not_or] at h
    rw [List.foldl_cons, ih h.2, Array.getElem?_setIfInBounds_ne (Ne.symm h.1)]

/-- Where no place is written twice, a place that is written holds its value. -/
theorem getElem?_writeAll_of_mem (hplaces : (writes.map Prod.fst).Nodup) (h : (k, x) ∈ writes)
    (hk : k < t.size) : (writeAll t writes)[k]? = some x := by
  induction writes generalizing t with
  | nil => cases h
  | cons p writes ih =>
    rw [List.map_cons, List.nodup_cons] at hplaces
    show (writeAll (t.setIfInBounds p.1 p.2) writes)[k]? = some x
    rcases List.mem_cons.mp h with rfl | h
    · rw [getElem?_writeAll_of_notMem hplaces.1, Array.getElem?_setIfInBounds_self_of_lt hk]
    · exact ih hplaces.2 h (by rwa [Array.size_setIfInBounds])

end Writes

/-! ### Rows and columns -/

section Positions

variable {nx ny i j r r' s s' w : Nat} {mask : Array Bool}

/-- The rows and columns of the active positions, as a grid has them. -/
def activeIndex (nx ny : Nat) (mask : Array Bool) : List (Int × Int) :=
  (activePositions nx ny mask).map fun p => ((p.1 : Int), (p.2 : Int))

/-- The places of the active positions, row by row. -/
def activePlaces (nx ny : Nat) (mask : Array Bool) : List Nat :=
  (activePositions nx ny mask).map fun p => p.1 * nx + p.2

theorem length_activeIndex :
    (activeIndex nx ny mask).length = (activePositions nx ny mask).length :=
  List.length_map _

theorem getElem?_activeIndex {c : Nat} {p : Int × Int} : (activeIndex nx ny mask)[c]? = some p ↔
    ∃ j i : Nat, (activePositions nx ny mask)[c]? = some (j, i) ∧ p = ((j : Int), (i : Int)) := by
  rw [activeIndex, List.getElem?_map, Option.map_eq_some_iff]
  constructor
  · rintro ⟨⟨j, i⟩, hc, rfl⟩
    exact ⟨j, i, hc, rfl⟩
  · rintro ⟨j, i, hc, rfl⟩
    exact ⟨(j, i), hc, rfl⟩

theorem slot?_natCast (hj : j < ny) (hi : i < nx) : slot? ny nx (j, i) = some (j * nx + i) := by
  simp [slot?, place?_natCast hj, place?_natCast hi]

theorem mapM_slot?_activeIndex :
    (activeIndex nx ny mask).mapM (slot? ny nx) = some (activePlaces nx ny mask) := by
  rw [mapM_eq_some_iff, activeIndex, activePlaces, List.forall₂_map_left_iff,
    List.forall₂_map_right_iff, List.forall₂_same]
  intro p hp
  obtain ⟨hj, hi, -⟩ := mem_activePositions.mp hp
  exact slot?_natCast hj hi

theorem nodup_activePlaces (hx : 0 < nx) : (activePlaces nx ny mask).Nodup :=
  (List.pairwise_map.mpr (pairwise_activePositions hx ny mask)).imp Nat.ne_of_lt

theorem mem_activePlaces (hi : i < nx) :
    j * nx + i ∈ activePlaces nx ny mask ↔ (j, i) ∈ activePositions nx ny mask := by
  rw [activePlaces, List.mem_map]
  constructor
  · rintro ⟨⟨j', i'⟩, hp, h⟩
    obtain ⟨rfl, rfl⟩ := node_inj (mem_activePositions.mp hp).2.1 hi h
    exact hp
  · exact fun hp => ⟨_, hp, rfl⟩

/-- Of two places the earlier one is in an earlier row or farther left in the same row. -/
theorem lex_of_place_lt (hs' : s' < w) (h : r * w + s < r' * w + s') :
    r < r' ∨ r = r' ∧ s < s' := by
  rcases Nat.lt_trichotomy r r' with hr | rfl | hr
  · exact Or.inl hr
  · exact Or.inr ⟨rfl, Nat.lt_of_add_lt_add_left h⟩
  · have hplace : r' * w + s' < r * w := cell_lt hs' hr
    omega

/-- The index goes row by row, and through each row from left to right. -/
theorem pairwise_activeIndex (hx : 0 < nx) (ny : Nat) (mask : Array Bool) :
    (activeIndex nx ny mask).Pairwise (Prod.Lex (· < ·) (· < ·)) := by
  refine List.pairwise_map.mpr ((pairwise_activePositions hx ny mask).imp_of_mem ?_)
  intro p q _ hq h
  rw [Prod.lex_def, Int.ofNat_lt, Int.ofNat_inj, Int.ofNat_lt]
  exact lex_of_place_lt (mem_activePositions.mp hq).2.1 h

end Positions

/-! ### Layouts that are filled -/

/-- A layout with the values in its active positions, row by row, and `fill` everywhere else. -/
def filled (nx ny : Nat) (mask : Array Bool) (v : List α) (fill : α) : NdArray α :=
  { shape := [ny, nx]
    items := writeAll (Array.replicate (ny * nx) fill) ((activePlaces nx ny mask).zip v) }

section Filled

variable {nx ny i j c : Nat} {mask : Array Bool} {v w : List α} {fill fill' : α}

theorem scatterAt_activeIndex (hv : v.length = (activeIndex nx ny mask).length) (fill : α) :
    scatterAt ny nx (activeIndex nx ny mask) (.ofList v) fill =
      .ok (filled nx ny mask v fill) := by
  unfold scatterAt
  rw [NdArray.toArray_ofList, mapM_slot?_activeIndex, ← hv]
  show ((NdArray.ofList v).dropOuterAxes.spread v.length >>= fun spread => _) = _
  rw [NdArray.spread_ofList]
  rfl

theorem itemAt?_filled (hj : j < ny) (hi : i < nx) : (filled nx ny mask v fill).itemAt? (j, i) =
    (filled nx ny mask v fill).items[j * nx + i]? := by
  show (slot? ny nx (j, i)).bind _ = _
  rw [slot?_natCast hj hi, Option.bind_some]

/-- The position of a cell holds its value. -/
theorem itemAt?_of_active {p : Int × Int} (hx : 0 < nx)
    (hv : v.length = (activeIndex nx ny mask).length) (hc : (activeIndex nx ny mask)[c]? = some p) :
    (filled nx ny mask v fill).itemAt? p = v[c]? := by
  obtain ⟨hlt, -⟩ := List.getElem?_eq_some_iff.mp hc
  obtain ⟨j, i, hcell, rfl⟩ := getElem?_activeIndex.mp hc
  obtain ⟨hj, hi, -⟩ := mem_activePositions.mp (List.mem_of_getElem? hcell)
  have hlength : (activePlaces nx ny mask).length ≤ v.length :=
    Nat.le_of_eq (by rw [hv, length_activeIndex, activePlaces, List.length_map])
  have hplace : (activePlaces nx ny mask)[c]? = some (j * nx + i) := by
    rw [activePlaces, List.getElem?_map, hcell, Option.map_some]
  have hvalue : v[c]? = some v[c] := List.getElem?_eq_getElem (hv ▸ hlt)
  have hmem : (j * nx + i, v[c]) ∈ (activePlaces nx ny mask).zip v :=
    List.mem_of_getElem? (List.getElem?_zip_eq_some.mpr ⟨hplace, hvalue⟩)
  rw [itemAt?_filled hj hi, hvalue]
  refine getElem?_writeAll_of_mem ?_ hmem ?_
  · rw [List.map_fst_zip hlength]
    exact nodup_activePlaces hx
  · rw [Array.size_replicate]
    exact cell_lt hi hj

theorem itemAt?_of_inactive (hj : j < ny) (hi : i < nx)
    (h : ((j : Int), (i : Int)) ∉ activeIndex nx ny mask) :
    (filled nx ny mask v fill).itemAt? (j, i) = some fill := by
  have hplace : j * nx + i ∉ ((activePlaces nx ny mask).zip v).map Prod.fst := by
    intro hk
    obtain ⟨⟨k, x⟩, hmem, rfl⟩ := List.mem_map.mp hk
    exact h (List.mem_map_of_mem ((mem_activePlaces hi).mp (List.of_mem_zip hmem).1))
  rw [itemAt?_filled hj hi]
  show (writeAll _ _)[_]? = _
  rw [getElem?_writeAll_of_notMem hplace, Array.getElem?_replicate, if_pos (cell_lt hi hj)]

/-- The positions of the cells give back the values. -/
theorem mapM_itemAt?_filled (hx : 0 < nx) (hv : v.length = (activeIndex nx ny mask).length) :
    (activeIndex nx ny mask).mapM (filled nx ny mask v fill).itemAt? = some v := by
  rw [mapM_eq_some_iff, List.forall₂_iff_get]
  refine ⟨hv.symm, fun c hc hc' => ?_⟩
  rw [List.get_eq_getElem, itemAt?_of_active hx hv (List.getElem?_eq_getElem hc)]
  exact List.getElem?_eq_getElem hc'

/-- The positions of the cells tell different values apart. -/
theorem eq_of_itemAt?_filled (hx : 0 < nx) (hv : v.length = (activeIndex nx ny mask).length)
    (hw : w.length = (activeIndex nx ny mask).length)
    (h : ∀ p ∈ activeIndex nx ny mask,
      (filled nx ny mask v fill).itemAt? p = (filled nx ny mask w fill').itemAt? p) : v = w := by
  refine List.ext_getElem? fun c => ?_
  cases hc : (activeIndex nx ny mask)[c]? with
  | some p =>
    have hp := h p (List.mem_of_getElem? hc)
    rwa [itemAt?_of_active hx hv hc, itemAt?_of_active hx hw hc] at hp
  | none =>
    rw [List.getElem?_eq_none_iff] at hc
    rw [List.getElem?_eq_none (hv ▸ hc), List.getElem?_eq_none (hw ▸ hc)]

end Filled

/-! ### Grids -/

section Scatter

variable [Scalar α] {nx ny : Nat} {mask : Array Bool} {mask? : Option (NdArray Bool)} {lx ly : α}
  {v : List α} {memory : Memory} {g : CellGrid α}

omit [Scalar α] in
/-- The values of a grid with a layout are put there. Only a grid without cells may have an empty
index. -/
theorem scatter_eq_scatterAt {index : List (Int × Int)} (hindex : g.index? = some index)
    (hlayout : g.layout? = some ((ny : Int), (nx : Int))) (hcells : index = [] → g.size = 0)
    (values : Nested α) (fill : α) :
    g.scatter values fill = (scatterAt ny nx index values fill).mapError .array := by
  unfold scatter
  rw [hindex, hlayout]
  dsimp only
  rw [if_neg (by simp), if_neg]
  · rfl
  · simpa using hcells

theorem size_eq_length_activeIndex :
    (ofMask nx ny lx ly mask).size = (activeIndex nx ny mask).length :=
  size_ofMask.trans length_activeIndex.symm

theorem scatter_ofMask (hv : v.length = (ofMask nx ny lx ly mask).size) (fill : α) :
    (ofMask nx ny lx ly mask).scatter (.ofList v) fill = .ok (filled nx ny mask v fill) := by
  have hindex : (ofMask nx ny lx ly mask).index? = some (activeIndex nx ny mask) := rfl
  rw [size_eq_length_activeIndex] at hv
  rw [scatter_eq_scatterAt hindex rfl fun h => ?_, scatterAt_activeIndex hv]
  · rfl
  · rw [size_eq_length_activeIndex, h, List.length_nil]

/-- Without a mask a layout gives a grid if its positions fit in memory. -/
theorem exists_cartesian_of_fits (hx : 0 < nx) (hy : 0 < ny) (h : ny * nx ≤ memory.bytes) :
    ∃ g, cartesian memory nx ny lx ly none = .ok g := by
  have hsizes : NdArray.checkSizes memory 1 [(ny : Int), (nx : Int)] = .ok () := by
    have hy' : ¬ny = 0 := by omega
    have hx' : ¬nx = 0 := by omega
    simp [NdArray.checkSizes, hx', hy', Nat.not_le.mpr (Nat.lt_of_le_of_lt h memory.bytes_lt),
      Nat.not_lt.mpr h]
  have hzero : ¬((nx : Int) = 0 || (ny : Int) = 0) := by
    simp only [Bool.or_eq_true, decide_eq_true_eq]
    omega
  refine ⟨unmasked nx ny lx ly, ?_⟩
  unfold cartesian
  dsimp only
  rw [hsizes]
  show (if _ then _ else _) = _
  rw [if_neg hzero]
  rfl

/-- Scattering values and numbering cells are inverse. Every mask of the shape of the layout gives a
grid, and so does no mask if the layout fits in memory. The index of the grid lists the active
positions row by row, and each row from left to right, and the cell with a number has the corners of
the position with that number. Values, one for each cell, are put into the positions of their cells,
and `fill` into all others, so the positions of the cells give the values back and tell any two
sequences of values apart. -/
theorem scatter_inverts_index (hx : 0 < nx) (hy : 0 < ny) :
    ((∀ m ∈ mask?, m.shape = [ny, nx]) → (mask? = none → ny * nx ≤ memory.bytes) →
        ∃ g, cartesian memory nx ny lx ly mask? = .ok g) ∧
      ∀ g, cartesian memory nx ny lx ly mask? = .ok g → ∃ index : List (Int × Int),
        g.index? = some index ∧ index.length = g.size ∧
        index.Pairwise (Prod.Lex (· < ·) (· < ·)) ∧
        (∀ p, p ∈ index ↔ ∃ j < ny, ∃ i < nx, p = ((j : Int), (i : Int)) ∧
          ∀ m ∈ mask?, m.items.getD (j * nx + i) false) ∧
        (∀ (c j i : Nat), index[c]? = some ((j : Int), (i : Int)) →
          g.cellNodes.getD c [] = corners nx j i) ∧
        (∀ (v : List α) (fill : α), v.length = g.size → ∃ t,
          g.scatter (.ofList v) fill = .ok t ∧ t.shape = [ny, nx] ∧ t.items.size = ny * nx ∧
          (∀ (c : Nat) p, index[c]? = some p → t.itemAt? p = v[c]?) ∧
          (∀ j < ny, ∀ i < nx, ((j : Int), (i : Int)) ∉ index → t.itemAt? (j, i) = some fill) ∧
          g.gather t = some v) ∧
        ∀ (v w : List α) (fill fill' : α) (t u : NdArray α), v.length = g.size →
          w.length = g.size → g.scatter (.ofList v) fill = .ok t →
          g.scatter (.ofList w) fill' = .ok u →
          (∀ p ∈ index, t.itemAt? p = u.itemAt? p) → v = w := by
  refine ⟨fun hshape hfits => ?_, fun g hg => ?_⟩
  · cases mask? with
    | none => exact exists_cartesian_of_fits hx hy (hfits rfl)
    | some m => exact exists_cartesian_of_shape hx hy (hshape m rfl)
  obtain ⟨-, rfl⟩ := cartesian_eq_ofMask hg
  refine ⟨activeIndex nx ny (activity nx ny mask?), rfl, size_eq_length_activeIndex.symm,
    pairwise_activeIndex hx ny _, fun p => mem_index, fun c j i hc => ?_, fun v fill hv => ?_,
    fun v w fill fill' t u hv hw ht hu hagree => ?_⟩
  · obtain ⟨j', i', hc, h⟩ := getElem?_activeIndex.mp hc
    rw [Prod.mk.injEq, Int.ofNat_inj, Int.ofNat_inj] at h
    obtain ⟨rfl, rfl⟩ := h
    exact nodes_ofMask hc
  · have hlength := hv.trans size_eq_length_activeIndex
    exact ⟨_, scatter_ofMask hv fill, rfl, size_writeAll.trans Array.size_replicate,
      fun c p => itemAt?_of_active hx hlength, fun j hj i hi => itemAt?_of_inactive hj hi,
      mapM_itemAt?_filled hx hlength⟩
  · rw [scatter_ofMask hv] at ht
    rw [scatter_ofMask hw] at hu
    cases ht
    cases hu
    exact eq_of_itemAt?_filled hx (hv.trans size_eq_length_activeIndex)
      (hw.trans size_eq_length_activeIndex) hagree

theorem scatter_inverts_index_sample :
    cartesian sampleMemory (3 : Nat) (2 : Nat) (1 : Float) 1 (some notchMask) = .ok notchGrid ∧
      ∃ t, notchGrid.scatter (.ofList [1, 2, 3, 4, 5]) (-1) = .ok t ∧
        t.itemAt? (1, 2) = some 5 ∧ t.itemAt? (1, 1) = some (-1) ∧
        notchGrid.gather t = some [1, 2, 3, 4, 5] := by
  have hg : cartesian sampleMemory (3 : Nat) (2 : Nat) (1 : Float) 1 (some notchMask) =
    .ok notchGrid := rfl
  have hi : notchGrid.index? = some [(0, 0), (0, 1), (0, 2), (1, 0), (1, 2)] := rfl
  obtain ⟨index, hindex, -, -, -, -, hscatter, -⟩ :=
    (scatter_inverts_index (by decide) (by decide)).2 notchGrid hg
  obtain rfl := Option.some.inj (hi.symm.trans hindex)
  obtain ⟨t, ht, -, -, hactive, hinactive, hgather⟩ := hscatter [1, 2, 3, 4, 5] (-1) rfl
  exact ⟨hg, t, ht, hactive 4 (1, 2) rfl,
    hinactive 1 (by decide) 1 (by decide) (by decide), hgather⟩

end Scatter

end CellGrid

end Eikonal
