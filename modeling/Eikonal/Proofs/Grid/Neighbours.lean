import Eikonal.Grid.Neighbours
import Eikonal.Proofs.Grid.Sparse
import Eikonal.Proofs.Traversal
import Mathlib.Data.List.GetD
import Mathlib.Data.List.Perm.Basic

/-! The neighbours of the cells of a grid. The product of the incidence and its transpose, and the
sets that links are put into, both give the table of a relation: the table lists exactly the related
cells, ascending. The relation is symmetric and no cell is its own neighbour. A table of links fails
only at a fault in the links. -/

namespace Eikonal

namespace NeighbourTable

/-- The table of a relation between `n` cells; every list is ascending. -/
def ofRelation (n : Nat) (related : Nat → Nat → Bool) : NeighbourTable :=
  ((List.range n).map fun c => (List.range n).filter (related c)).toArray

/-- A row of the table of a relation holds the cells that are related, ascending. -/
theorem row_ofRelation (n : Nat) (related : Nat → Nat → Bool) (c : Nat) :
    (ofRelation n related).row c = if c < n then (List.range n).filter (related c) else [] := by
  unfold row ofRelation
  by_cases hc : c < n
  · simp [hc]
  · simp [hc]

theorem mem_row_ofRelation {n : Nat} {related : Nat → Nat → Bool} {c d : Nat} :
    d ∈ (ofRelation n related).row c ↔ c < n ∧ d < n ∧ related c d := by
  rw [row_ofRelation]
  split
  · rename_i hc
    simp [hc]
  · rename_i hc
    simp [hc]

theorem pairwise_row_ofRelation (n : Nat) (related : Nat → Nat → Bool) (c : Nat) :
    ((ofRelation n related).row c).Pairwise (· < ·) := by
  rw [row_ofRelation]
  split
  · exact List.pairwise_lt_range.filter _
  · exact List.Pairwise.nil

/-- A table with ascending lists of the related cells is that of the relation. -/
theorem eq_ofRelation {t : NeighbourTable} {n : Nat} {related : Nat → Nat → Bool}
    (hsize : t.size = n) (hasc : ∀ c, (t.row c).Pairwise (· < ·))
    (hmem : ∀ c d, d ∈ t.row c ↔ c < n ∧ d < n ∧ related c d) : t = ofRelation n related := by
  have hrow : ∀ c, t.row c = (ofRelation n related).row c := by
    intro c
    have hasc' := pairwise_row_ofRelation n related c
    have hperm : (t.row c).Perm ((ofRelation n related).row c) :=
      (List.perm_ext_iff_of_nodup ((hasc c).imp Nat.ne_of_lt) (hasc'.imp Nat.ne_of_lt)).mpr
        fun d => (hmem c d).trans mem_row_ofRelation.symm
    exact hperm.eq_of_pairwise (fun _ _ _ _ h h' => absurd h (Nat.lt_asymm h')) (hasc c) hasc'
  have hsize' : (ofRelation n related).size = n := by simp [ofRelation]
  refine Array.ext (hsize.trans hsize'.symm) fun c hc hc' => ?_
  have h := hrow c
  rwa [row, row, Array.getD_eq_getD_getElem?, Array.getD_eq_getD_getElem?,
    Array.getElem?_eq_getElem hc, Array.getElem?_eq_getElem hc', Option.getD_some,
    Option.getD_some] at h

/-- Every list is ascending and holds other cells of the table, which hold its cell in turn. -/
structure Undirected (t : NeighbourTable) (n : Nat) : Prop where
  size : t.size = n
  ascending : ∀ c, (t.row c).Pairwise (· < ·)
  lt : ∀ {c d : Nat}, d ∈ t.row c → d < n
  ne : ∀ {c d : Nat}, d ∈ t.row c → d ≠ c
  symm : ∀ {c d : Nat}, d ∈ t.row c → c ∈ t.row d

theorem undirected_ofRelation {n : Nat} {related : Nat → Nat → Bool}
    (hsymm : ∀ c d, related c d = related d c) (hirrefl : ∀ c, related c c = false) :
    (ofRelation n related).Undirected n where
  size := by simp [ofRelation]
  ascending := pairwise_row_ofRelation n related
  lt h := (mem_row_ofRelation.mp h).2.1
  ne {c d} h := by
    rintro rfl
    have hself := (mem_row_ofRelation.mp h).2.2
    rw [hirrefl] at hself
    cases hself
  symm {c d} h := by
    obtain ⟨hc, hd, hrelated⟩ := mem_row_ofRelation.mp h
    exact mem_row_ofRelation.mpr ⟨hd, hc, by rw [hsymm]; exact hrelated⟩

end NeighbourTable

namespace CellGrid

variable {α : Type}

/-- Whether two node lists have a node in common. -/
def shareNode (a b : List Int) : Bool := a.any b.contains

theorem shareNode_comm (a b : List Int) : shareNode a b = shareNode b a := by
  rw [Bool.eq_iff_iff]
  simp only [shareNode, List.any_eq_true, List.contains_iff_mem]
  constructor <;> rintro ⟨x, h1, h2⟩ <;> exact ⟨x, h2, h1⟩

/-! ### Links -/

section Links

variable {n c d : Nat} {l : List GivenId} {links : List (List GivenId)} {ids : List (List Int)}
  {t : NeighbourTable} {e : GridError}

theorem linkTarget_eq_ok_iff {id : GivenId} :
    linkTarget n c id = .ok d ↔ id = .ok (d : Int) ∧ d < n ∧ d ≠ c := by
  cases id with
  | error e => simp [linkTarget]
  | ok i =>
    simp only [linkTarget, Bool.and_eq_true, decide_eq_true_eq, Except.ok.injEq]
    split
    · split
      · simp only [reduceCtorEq, false_iff]
        omega
      · simp only [Except.ok.injEq]
        omega
    · simp only [reduceCtorEq, false_iff]
      omega

theorem fault_of_linkTarget {i : Int} (h : linkTarget n c (.ok i) = .error e) :
    (¬(0 ≤ i ∧ i < n) ∧ e = .outOfRange i c n) ∨ i = c ∧ e = .selfLink c := by
  simp only [linkTarget, Bool.and_eq_true, decide_eq_true_eq] at h
  split at h
  · split at h
    · rename_i hself
      cases h
      exact Or.inr ⟨hself, rfl⟩
    · cases h
  · rename_i hrange
    cases h
    exact Or.inl ⟨hrange, rfl⟩

theorem getD_modify {sets : LinkSets} (hc : c < sets.size) (f : Std.TreeSet Nat → Std.TreeSet Nat)
    (i : Nat) :
    (sets.modify c f).getD i ∅ = if i = c then f (sets.getD c ∅) else sets.getD i ∅ := by
  rw [Array.getD_eq_getD_getElem?, Array.getElem?_modify]
  by_cases hi : c = i
  · subst hi
    simp [hc]
  · simp [hi, Ne.symm hi]

/-- The sets of `n` cells: that of each cell holds the cells in relation to it. -/
structure LinkSets.Hold (sets : LinkSets) (n : Nat) (related : Nat → Nat → Prop) : Prop where
  size : sets.size = n
  mem : ∀ i j, j ∈ sets.getD i ∅ ↔ related i j

namespace LinkSets.Hold

variable {sets after : LinkSets} {related : Nat → Nat → Prop}

/-- No cell is in a set before any link. -/
theorem replicate (n : Nat) : Hold (Array.replicate n ∅) n fun _ _ => False where
  size := Array.size_replicate
  mem i j := by
    rw [Array.getD_eq_getD_getElem?, Array.getElem?_replicate]
    by_cases hi : i < n <;> simp [hi]

/-- A link relates its two cells, in either order. -/
theorem link (h : sets.Hold n related) (hc : c < n) (hd : d < n) (hne : d ≠ c) :
    (link sets c d).Hold n fun i j => related i j ∨ (i = c ∧ j = d) ∨ (j = c ∧ i = d) where
  size := by simp [CellGrid.link, h.size]
  mem i j := by
    have hc' : c < sets.size := h.size ▸ hc
    have hd' : d < (sets.modify c (·.insert d)).size := by rwa [Array.size_modify, h.size]
    rw [CellGrid.link, getD_modify hd', getD_modify hc', getD_modify hc', if_neg hne, ← h.mem]
    by_cases hid : i = d
    · have hic : i ≠ c := hid.trans_ne hne
      rw [if_pos hid, ← hid, Std.TreeSet.mem_insert, Nat.compare_eq_eq]
      simp only [hic, false_and, false_or, and_true, eq_comm (a := c), or_comm]
    · by_cases hic : i = c
      · rw [if_neg hid, if_pos hic, ← hic, Std.TreeSet.mem_insert, Nat.compare_eq_eq]
        simp only [hid, and_false, or_false, true_and, eq_comm (a := d), or_comm (b := j = d)]
      · rw [if_neg hid, if_neg hic]
        simp only [hid, hic, false_and, and_false, or_false]

/-- A list relates its cell to all that it leads to. -/
theorem linkList (h : sets.Hold n related) (hc : c < n)
    (hok : linkList n c sets l = .ok after) :
    (∀ id ∈ l, ∃ d : Nat, id = .ok (d : Int) ∧ d < n ∧ d ≠ c) ∧ after.Hold n fun i j =>
      related i j ∨ (i = c ∧ .ok (j : Int) ∈ l) ∨ (j = c ∧ .ok (i : Int) ∈ l) := by
  induction l generalizing sets related with
  | nil =>
    cases hok
    exact ⟨fun _ hid => absurd hid List.not_mem_nil, h.size, fun i j => by rw [h.mem]; simp⟩
  | cons id l ih =>
    cases htarget : linkTarget n c id with
    | error e =>
      rw [CellGrid.linkList, List.foldlM_cons, htarget] at hok
      cases hok
    | ok d =>
      rw [CellGrid.linkList, List.foldlM_cons, htarget] at hok
      obtain ⟨rfl, hd, hne⟩ := linkTarget_eq_ok_iff.mp htarget
      obtain ⟨hrest, hafter⟩ := ih (h.link hc hd hne) hok
      refine ⟨List.forall_mem_cons.mpr ⟨⟨d, rfl, hd, hne⟩, hrest⟩, hafter.size, fun i j => ?_⟩
      rw [hafter.mem]
      simp only [List.mem_cons, Except.ok.injEq, Int.natCast_inj]
      grind

/-- Lists of some cells relate each of these cells to all that its list leads to. -/
theorem foldlM_linkList {rows : List (List GivenId × Nat)} (h : sets.Hold n related)
    (hrows : ∀ p ∈ rows, p.2 < n)
    (hok : rows.foldlM (fun sets p => CellGrid.linkList n p.2 sets p.1) sets = .ok after) :
    (∀ p ∈ rows, ∀ id ∈ p.1, ∃ d : Nat, id = .ok (d : Int) ∧ d < n ∧ d ≠ p.2) ∧
      after.Hold n fun i j => related i j ∨ ∃ p ∈ rows,
        (i = p.2 ∧ .ok (j : Int) ∈ p.1) ∨ (j = p.2 ∧ .ok (i : Int) ∈ p.1) := by
  induction rows generalizing sets related with
  | nil =>
    cases hok
    exact ⟨fun _ hp => absurd hp List.not_mem_nil, h.size, fun i j => by rw [h.mem]; simp⟩
  | cons p rows ih =>
    rw [List.forall_mem_cons] at hrows
    rw [List.foldlM_cons] at hok
    obtain ⟨next, hnext, hok⟩ := bind_eq_ok hok
    obtain ⟨hleads, hhold⟩ := h.linkList hrows.1 hnext
    obtain ⟨hrest, hafter⟩ := ih hhold hrows.2 hok
    refine ⟨List.forall_mem_cons.mpr ⟨hleads, hrest⟩, hafter.size, fun i j => ?_⟩
    rw [hafter.mem, or_assoc]
    simp only [List.mem_cons, exists_eq_or_imp]

/-- The lists of the sets are the table of the relation that they hold. -/
theorem map_toList_eq {related : Nat → Nat → Bool} (h : sets.Hold n fun c d => related c d)
    (hlt : ∀ c d, related c d → c < n ∧ d < n) :
    sets.map (·.toList) = NeighbourTable.ofRelation n related := by
  have hrow : ∀ c, NeighbourTable.row (sets.map (·.toList)) c = (sets.getD c ∅).toList := by
    intro c
    rw [NeighbourTable.row, Array.getD_eq_getD_getElem?, Array.getD_eq_getD_getElem?,
      Array.getElem?_map]
    cases sets[c]? <;> rfl
  refine NeighbourTable.eq_ofRelation (by simp [h.size]) (fun c => ?_) fun c d => ?_
  · rw [hrow]
    exact Std.TreeSet.ordered_toList.imp Nat.compare_eq_lt.mp
  · rw [hrow, Std.TreeSet.mem_toList, h.mem]
    constructor
    · intro hcd
      obtain ⟨hc, hd⟩ := hlt c d hcd
      exact ⟨hc, hd, hcd⟩
    · rintro ⟨-, -, hcd⟩
      exact hcd

end LinkSets.Hold

/-- Whether one of two cells is linked to the other. -/
def areLinked (links : List (List GivenId)) (c d : Nat) : Bool :=
  .ok (d : Int) ∈ links.getD c [] || .ok (c : Int) ∈ links.getD d []

theorem areLinked_comm (links : List (List GivenId)) (c d : Nat) :
    areLinked links c d = areLinked links d c := Bool.or_comm _ _

/-- The lists of links go with the cells whose number they have. -/
theorem mem_getD_iff {id : GivenId} :
    id ∈ links.getD c [] ↔ ∃ p ∈ links.zipIdx, c = p.2 ∧ id ∈ p.1 := by
  rw [List.getD_eq_getElem?_getD]
  constructor
  · intro hid
    cases hl : links[c]? with
    | none =>
      rw [hl] at hid
      cases hid
    | some l =>
      rw [hl] at hid
      exact ⟨(l, c), List.mk_mem_zipIdx_iff_getElem?.mpr hl, rfl, hid⟩
  · rintro ⟨⟨l, _⟩, hp, rfl, hid⟩
    rw [List.mk_mem_zipIdx_iff_getElem?.mp hp]
    exact hid

/-- Linked cells are among the `n` cells if every link leads to one of these. -/
theorem lt_of_areLinked (hn : links.length = n)
    (hleads : ∀ c, ∀ id ∈ links.getD c [], ∃ d : Nat, id = .ok (d : Int) ∧ d < n ∧ d ≠ c)
    (h : areLinked links c d) : c < n ∧ d < n := by
  have hlt : ∀ {a b : Nat}, .ok (b : Int) ∈ links.getD a [] → a < n ∧ b < n := by
    intro a b hb
    obtain ⟨b', hb', hlt, -⟩ := hleads a _ hb
    cases hb'
    refine ⟨?_, hlt⟩
    by_contra ha
    rw [List.getD_eq_getElem?_getD, List.getElem?_eq_none (by omega)] at hb
    cases hb
  rw [areLinked, Bool.or_eq_true, decide_eq_true_eq, decide_eq_true_eq] at h
  rcases h with hd | hc
  · exact hlt hd
  · exact (hlt hc).symm

/-- A table of links exists only if every link leads from its cell to another one. It is the table
of the cells of which one is linked to the other. -/
theorem of_linked_eq_ok (h : linked n links = .ok t) : links.length = n ∧
    (∀ c, ∀ id ∈ links.getD c [], ∃ d : Nat, id = .ok (d : Int) ∧ d < n ∧ d ≠ c) ∧
      t = .ofRelation n (areLinked links) := by
  unfold linked at h
  split at h
  · rename_i hn
    cases hsets : links.zipIdx.foldlM (fun sets p => linkList n p.2 sets p.1)
      (Array.replicate n ∅) with
    | error e =>
      rw [hsets] at h
      cases h
    | ok sets =>
      rw [hsets] at h
      cases h
      have hrows : ∀ p ∈ links.zipIdx, p.2 < n := fun p hp =>
        hn ▸ (List.getElem?_eq_some_iff.mp (List.mem_zipIdx_iff_getElem?.mp hp)).1
      obtain ⟨hleads, hhold⟩ := (LinkSets.Hold.replicate n).foldlM_linkList hrows hsets
      have hlists : ∀ c, ∀ id ∈ links.getD c [], ∃ d : Nat, id = .ok (d : Int) ∧ d < n ∧ d ≠ c := by
        intro c id hid
        obtain ⟨p, hp, rfl, hmem⟩ := mem_getD_iff.mp hid
        exact hleads p hp id hmem
      have hrelated : sets.Hold n fun c d => areLinked links c d := by
        refine ⟨hhold.size, fun c d => ?_⟩
        rw [hhold.mem, areLinked, Bool.or_eq_true, decide_eq_true_eq, decide_eq_true_eq,
          mem_getD_iff, mem_getD_iff]
        simp only [false_or, and_or_left, exists_or]
      exact ⟨hn, hlists, hrelated.map_toList_eq fun c d => lt_of_areLinked hn hlists⟩
  · cases h

theorem of_linked_eq_error (h : linked n links = .error e) :
    links.length ≠ n ∧ e = .listCount n links.length ∨
      ∃ c, ∃ id ∈ links.getD c [], linkTarget n c id = .error e := by
  unfold linked at h
  split at h
  · cases hsets : links.zipIdx.foldlM (fun sets p => linkList n p.2 sets p.1)
      (Array.replicate n ∅) with
    | error e' =>
      rw [hsets] at h
      cases h
      obtain ⟨p, hp, before, hlist⟩ := exists_of_foldlM_eq_error hsets
      obtain ⟨id, hid, before, hlink⟩ := exists_of_foldlM_eq_error hlist
      refine Or.inr ⟨p.2, id, mem_getD_iff.mpr ⟨p, hp, rfl, hid⟩, ?_⟩
      cases htarget : linkTarget n p.2 id with
      | error e =>
        rw [htarget] at hlink
        cases hlink
        rfl
      | ok d =>
        rw [htarget] at hlink
        cases hlink
    | ok sets =>
      rw [hsets] at h
      cases h
  · rename_i hn
    cases h
    exact Or.inl ⟨hn, rfl⟩

/-- Cells are neighbours if either one is linked to the other. -/
theorem mem_row_of_linked (h : linked n links = .ok t) :
    d ∈ t.row c ↔ .ok (d : Int) ∈ links.getD c [] ∨ .ok (c : Int) ∈ links.getD d [] := by
  obtain ⟨hn, hleads, rfl⟩ := of_linked_eq_ok h
  have hrelated : areLinked links c d = true ↔
      .ok (d : Int) ∈ links.getD c [] ∨ .ok (c : Int) ∈ links.getD d [] := by
    rw [areLinked, Bool.or_eq_true, decide_eq_true_eq, decide_eq_true_eq]
  rw [NeighbourTable.mem_row_ofRelation, ← hrelated]
  constructor
  · rintro ⟨-, -, h⟩
    exact h
  · intro h
    obtain ⟨hc, hd⟩ := lt_of_areLinked hn hleads h
    exact ⟨hc, hd, h⟩

/-- Links given as whole numbers. -/
def wholeLinks (ids : List (List Int)) : List (List GivenId) := ids.map fun l => l.map .ok

theorem length_wholeLinks (ids : List (List Int)) : (wholeLinks ids).length = ids.length :=
  List.length_map _

theorem mem_wholeLinks {id : GivenId} :
    id ∈ (wholeLinks ids).getD c [] ↔ ∃ d ∈ ids.getD c [], .ok d = id := by
  have hrow : (wholeLinks ids).getD c [] = (ids.getD c []).map .ok :=
    List.getD_map ids [] fun l => (l.map Except.ok : List GivenId)
  rw [hrow, List.mem_map]

/-- The error names a fault in the links. -/
theorem fault_of_linked (h : linked n (wholeLinks ids) = .error e) :
    (ids.length ≠ n ∧ e = .listCount n ids.length) ∨
      ∃ c, ∃ d ∈ ids.getD c [], (¬(0 ≤ d ∧ d < n) ∧ e = .outOfRange d c n) ∨
        d = c ∧ e = .selfLink c := by
  rcases of_linked_eq_error h with hcount | ⟨c, id, hid, htarget⟩
  · rw [length_wholeLinks] at hcount
    exact Or.inl hcount
  · obtain ⟨d, hd, rfl⟩ := mem_wholeLinks.mp hid
    exact Or.inr ⟨c, d, hd, fault_of_linkTarget htarget⟩

/-- Every fault leads to an error. -/
theorem exists_error_of_fault
    (h : ids.length ≠ n ∨ ∃ c, ∃ d ∈ ids.getD c [], ¬(0 ≤ d ∧ d < n) ∨ d = c) :
    ∃ e, linked n (wholeLinks ids) = .error e := by
  cases ht : linked n (wholeLinks ids) with
  | error e => exact ⟨e, rfl⟩
  | ok t =>
    obtain ⟨hcount, hlead, -⟩ := of_linked_eq_ok ht
    rw [length_wholeLinks] at hcount
    rcases h with h | ⟨c, d, hd, h⟩
    · exact absurd hcount h
    · obtain ⟨d', hd', hlt, hne⟩ := hlead c _ (mem_wholeLinks.mpr ⟨d, hd, rfl⟩)
      cases hd'
      omega

end Links

/-! ### Nodes -/

section Nodes

variable {memory : Memory} {g : CellGrid α} {t : NeighbourTable}

/-- A table with a positive number of items is held if it fits in memory. -/
theorem checkSizes_eq_ok {width : Nat} {n : Int} (hn : 0 < n)
    (h : width * n ≤ (memory.bytes : Int)) : NdArray.checkSizes memory width [n] = .ok () := by
  have hnat : width * n.toNat ≤ memory.bytes := by
    rw [← Int.ofNat_le, Int.natCast_mul, Int.toNat_of_nonneg (Int.le_of_lt hn)]
    exact h
  have hzero : n ≠ 0 := Int.ne_of_gt hn
  have hneg : ¬n < 0 := Int.not_lt.mpr (Int.le_of_lt hn)
  simp [NdArray.checkSizes, hneg, hzero, Nat.not_le.mpr (Nat.lt_of_le_of_lt hnat memory.bytes_lt),
    Nat.not_lt.mpr hnat]

/-- Node ids are accepted if none is negative and a table of the nodes fits in memory. -/
theorem checkNodes_eq_ok
    (h : ∀ l ∈ g.cellNodes, ∀ i ∈ l, 0 ≤ i ∧ 8 * (i + 2) ≤ (memory.bytes : Int)) :
    g.checkNodes memory = .ok () := by
  have hword := memory.word_le
  have hno : ∀ bad : Int → Bool,
      (∀ i, 0 ≤ i → 8 * (i + 2) ≤ (memory.bytes : Int) → bad i = false) →
        ¬g.cellNodes.any (·.any bad) := by
    intro bad hbad hany
    obtain ⟨l, hl, hany⟩ := Array.any_eq_true'.mp hany
    obtain ⟨i, hi, htrue⟩ := List.any_eq_true.mp hany
    rw [hbad i (h l hl i hi).1 (h l hl i hi).2] at htrue
    cases htrue
  -- the last node id is bounded as all of them are
  obtain ⟨hlast, hfits⟩ : -1 ≤ g.cellNodes.foldl (fun m l => l.foldl max m) (-1) ∧
      8 * (g.cellNodes.foldl (fun m l => l.foldl max m) (-1) + 2) ≤ (memory.bytes : Int) := by
    refine Array.foldl_induction (fun _ m => -1 ≤ m ∧ 8 * (m + 2) ≤ (memory.bytes : Int))
      (by omega) ?_
    intro c m hm
    refine List.foldlRecOn (motive := fun m => -1 ≤ m ∧ 8 * (m + 2) ≤ (memory.bytes : Int)) _
      max hm ?_
    intro m hm i hi
    have := h _ (Array.getElem_mem c.isLt) i hi
    omega
  unfold checkNodes
  dsimp only
  rw [if_neg (hno _ fun i h0 h1 => ?_), if_neg (hno _ fun i h0 h1 => ?_),
    checkSizes_eq_ok (by omega) hfits]
  · rfl
  · simpa using h0
  · have hword : fitsWord (i + 1) = true := by
      have hlt : (memory.bytes : Int) < 2 ^ 63 := Int.ofNat_lt.mpr memory.bytes_lt
      rw [fitsWord, Bool.and_eq_true, decide_eq_true_eq, decide_eq_true_eq,
        show (pow2 63 : Int) = 2 ^ 63 from rfl]
      omega
    rw [hword]
    rfl

theorem number_incidence_ne_zero_iff {c : Nat} {i : Int} :
    g.incidence.number c i ≠ 0 ↔ c < g.size ∧ i ∈ g.cellNodes.getD c [] := by
  rw [SparseTable.number_ne_zero_iff]
  simp only [incidence, List.mem_flatMap, List.mem_range, List.mem_map]
  constructor
  · rintro ⟨_, ⟨c, hc, i, hi, rfl⟩, rfl, rfl, -⟩
    exact ⟨hc, hi⟩
  · rintro ⟨hc, hi⟩
    exact ⟨⟨c, i, 1⟩, ⟨c, hc, i, hi, rfl⟩, rfl, rfl, Nat.one_ne_zero⟩

/-- The product of the incidence and its transpose counts something where cells share a node. -/
theorem number_mul_transpose_ne_zero_iff {c d : Nat} :
    (g.incidence.mul g.incidence.transpose).number c d ≠ 0 ↔ c < g.size ∧ d < g.size ∧
      shareNode (g.cellNodes.getD c []) (g.cellNodes.getD d []) := by
  rw [SparseTable.number_mul_ne_zero_iff]
  simp only [SparseTable.number_transpose, number_incidence_ne_zero_iff, shareNode,
    List.any_eq_true, List.contains_iff_mem]
  constructor
  · rintro ⟨i, ⟨hc, hi⟩, hd, hi'⟩
    exact ⟨hc, hd, i, hi, hi'⟩
  · rintro ⟨hc, hd, i, hi, hi'⟩
    exact ⟨i, ⟨hc, hi⟩, hd, hi'⟩

/-- The table of shared nodes is that of the cells with a node in common. -/
theorem sharing_eq_ofRelation (g : CellGrid α) : g.sharing = .ofRelation g.size fun c d =>
    c != d && shareNode (g.cellNodes.getD c []) (g.cellNodes.getD d []) := by
  have hrow : ∀ c, g.sharing.row c = if c < g.size then
      (((((g.incidence.mul g.incidence.transpose).rows.getD c []).columnSums.insert c 0).filter
        fun _ count => count != 0).keys) else [] := by
    intro c
    unfold NeighbourTable.row sharing
    by_cases hc : c < g.size <;> simp [hc]
  refine NeighbourTable.eq_ofRelation (by simp [sharing]) (fun c => ?_) fun c d => ?_
  · rw [hrow]
    split
    · exact Std.TreeMap.ordered_keys.imp Nat.compare_eq_lt.mp
    · exact List.Pairwise.nil
  · rw [hrow]
    split
    · rename_i hc
      have hrows : ∀ e ∈ (g.incidence.mul g.incidence.transpose).filter (fun e => e.row = c),
          e.row = c := fun e he => of_decide_eq_true (List.mem_filter.mp he).2
      rw [SparseTable.mem_keys_filter_ne_zero, Std.TreeMap.getD_insert, SparseTable.getD_rows,
        SparseTable.getD_columnSums hrows, SparseTable.number_filter_row, Bool.and_eq_true,
        bne_iff_ne]
      by_cases hcd : c = d
      · -- the diagonal holds the zero that was put there
        rw [if_pos (Nat.compare_eq_eq.mpr hcd)]
        exact ⟨fun h => absurd rfl h, fun h => absurd hcd h.2.2.1⟩
      · rw [if_neg (fun h => hcd (Nat.compare_eq_eq.mp h)), number_mul_transpose_ne_zero_iff]
        simp only [ne_eq, hcd, not_false_eq_true, true_and]
    · rename_i hc
      simp [hc]

theorem eq_ofRelation_of_nodes (hlinks : g.links? = none) (h : g.neighbours memory = .ok t) :
    t = .ofRelation g.size fun c d =>
      c != d && shareNode (g.cellNodes.getD c []) (g.cellNodes.getD d []) := by
  unfold neighbours at h
  rw [hlinks] at h
  dsimp only at h
  split at h
  · rename_i hempty
    cases h
    rw [hempty]
    rfl
  · cases hnodes : g.checkNodes memory with
    | error e =>
      rw [hnodes] at h
      cases h
    | ok _ =>
      rw [hnodes] at h
      cases h
      exact g.sharing_eq_ofRelation

theorem mem_row_of_nodes (hlinks : g.links? = none) (h : g.neighbours memory = .ok t) {c d : Nat} :
    d ∈ t.row c ↔ c < g.size ∧ d < g.size ∧ c ≠ d ∧
      shareNode (g.cellNodes.getD c []) (g.cellNodes.getD d []) := by
  rw [eq_ofRelation_of_nodes hlinks h, NeighbourTable.mem_row_ofRelation, Bool.and_eq_true,
    bne_iff_ne]

theorem exists_neighbours_of_nodes (hlinks : g.links? = none)
    (h : ∀ l ∈ g.cellNodes, ∀ i ∈ l, 0 ≤ i ∧ 8 * (i + 2) ≤ (memory.bytes : Int)) :
    ∃ t, g.neighbours memory = .ok t := by
  unfold neighbours
  rw [hlinks, checkNodes_eq_ok h]
  dsimp only
  split
  · exact ⟨_, rfl⟩
  · exact ⟨_, rfl⟩

end Nodes

/-! ### The relation -/

/-- The table of a grid is undirected. -/
theorem undirected_of_neighbours {memory : Memory} {g : CellGrid α} {t : NeighbourTable}
    (h : g.neighbours memory = .ok t) : t.Undirected g.size := by
  cases hlinks : g.links? with
  | none =>
    rw [eq_ofRelation_of_nodes hlinks h]
    refine NeighbourTable.undirected_ofRelation (fun c d => ?_) fun c => ?_
    · rw [shareNode_comm, bne_comm]
    · simp
  | some links =>
    unfold neighbours at h
    rw [hlinks] at h
    obtain ⟨-, hleads, rfl⟩ := of_linked_eq_ok h
    refine NeighbourTable.undirected_ofRelation (areLinked_comm links) fun c => ?_
    have hself : .ok (c : Int) ∉ links.getD c [] := by
      intro hc
      obtain ⟨d, hd, -, hne⟩ := hleads c _ hc
      cases hd
      exact hne rfl
    rw [areLinked, Bool.or_self]
    exact decide_eq_false hself

/-- The neighbours of a grid are exactly its relation: the cells that share a node or, where there
are links, the cells of which one is linked to the other. Node ids that are not negative give a
table if there is memory for one. Links that are whole numbers give none exactly if their lists do
not match the cells or a link leads to its own cell or to no cell, and the error names the fault. -/
theorem neighbours_exact (memory : Memory) (g : CellGrid α) :
    (∀ t, g.neighbours memory = .ok t → t.Undirected g.size ∧
      (g.links? = none → ∀ c < g.size, ∀ d < g.size, (d ∈ t.row c ↔
        c ≠ d ∧ ∃ i ∈ g.cellNodes.getD c [], i ∈ g.cellNodes.getD d [])) ∧
      ∀ links, g.links? = some links → ∀ c d, (d ∈ t.row c ↔
        .ok (d : Int) ∈ links.getD c [] ∨ .ok (c : Int) ∈ links.getD d [])) ∧
    (g.links? = none →
      (∀ l ∈ g.cellNodes, ∀ i ∈ l, 0 ≤ i ∧ 8 * (i + 2) ≤ (memory.bytes : Int)) →
        ∃ t, g.neighbours memory = .ok t) ∧
    ∀ ids : List (List Int), g.links? = some (wholeLinks ids) →
      ((∃ e, g.neighbours memory = .error e) ↔ ids.length ≠ g.size ∨
        ∃ c, ∃ d ∈ ids.getD c [], ¬(0 ≤ d ∧ d < g.size) ∨ d = c) ∧
      ∀ e, g.neighbours memory = .error e →
        (ids.length ≠ g.size ∧ e = .listCount g.size ids.length) ∨
          ∃ c, ∃ d ∈ ids.getD c [], (¬(0 ≤ d ∧ d < g.size) ∧ e = .outOfRange d c g.size) ∨
            d = c ∧ e = .selfLink c := by
  refine ⟨fun t h => ⟨undirected_of_neighbours h, fun hnone c hc d hd => ?_,
    fun links hlinks c d => ?_⟩, exists_neighbours_of_nodes, fun ids hids => ?_⟩
  · rw [mem_row_of_nodes hnone h, shareNode, List.any_eq_true]
    simp only [hc, hd, true_and, List.contains_iff_mem]
  · unfold neighbours at h
    rw [hlinks] at h
    exact mem_row_of_linked h
  · have hlinked : g.neighbours memory = linked g.size (wholeLinks ids) := by
      unfold neighbours
      rw [hids]
    rw [hlinked]
    refine ⟨⟨fun ⟨e, he⟩ => ?_, exists_error_of_fault⟩, fun e he => fault_of_linked he⟩
    rcases fault_of_linked he with ⟨hcount, -⟩ | ⟨c, d, hd, ⟨hrange, -⟩ | ⟨hself, -⟩⟩
    · exact Or.inl hcount
    · exact Or.inr ⟨c, d, hd, Or.inl hrange⟩
    · exact Or.inr ⟨c, d, hd, Or.inr hself⟩

end CellGrid

/-! ### Samples -/

/-- Enough memory for the tables of small grids. -/
def sampleMemory : Memory := { bytes := 4096 }

namespace CellGrid

/-- The first and the third cell share a node; the second one has none. -/
def nodeGrid : CellGrid Float :=
  { dimensions := 2
    centroids := #[#[0, 0], #[1, 0], #[2, 0]]
    cellNodes := #[[0, 1, 1], [], [7, 1]] }

def linkGrid (ids : List (List Int)) : CellGrid Float :=
  { dimensions := 2
    centroids := #[#[0, 0], #[1, 0], #[2, 0]]
    links? := some (wholeLinks ids) }

theorem neighbours_exact_sample :
    (∃ t, nodeGrid.neighbours sampleMemory = .ok t ∧ 2 ∈ t.row 0 ∧ 1 ∉ t.row 0) ∧
      (∃ t, (linkGrid [[2, 2], [], []]).neighbours sampleMemory = .ok t ∧ 0 ∈ t.row 2) ∧
      (linkGrid [[], []]).neighbours sampleMemory = .error (.listCount 3 2) := by
  refine ⟨?_, ?_, ?_⟩
  · obtain ⟨htable, hreturns, -⟩ := neighbours_exact sampleMemory nodeGrid
    obtain ⟨t, ht⟩ := hreturns rfl (by decide)
    have hmem := (htable t ht).2.1 rfl
    exact ⟨t, ht, (hmem 0 (by decide) 2 (by decide)).mpr (by decide),
      (hmem 0 (by decide) 1 (by decide)).not.mpr (by decide)⟩
  · obtain ⟨htable, -, -⟩ := neighbours_exact sampleMemory (linkGrid [[2, 2], [], []])
    have ht : (linkGrid [[2, 2], [], []]).neighbours sampleMemory = .ok #[[2], [], [0]] := by
      decide +kernel
    exact ⟨_, ht, ((htable _ ht).2.2 _ rfl 2 0).mpr (Or.inr List.mem_cons_self)⟩
  · obtain ⟨-, -, hlinks⟩ := neighbours_exact sampleMemory (linkGrid [[], []])
    obtain ⟨hfails, hfault⟩ := hlinks [[], []] rfl
    obtain ⟨e, he⟩ := hfails.mpr (Or.inl (by decide))
    rcases hfault e he with ⟨-, rfl⟩ | ⟨c, d, hd, -⟩
    · exact he
    · -- no cell lists anything
      rcases c with _ | _ | c <;> cases hd

end CellGrid

end Eikonal
