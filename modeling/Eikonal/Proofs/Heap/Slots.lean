import Eikonal.Heap
import Mathlib

/-! The slot table of a heap. In a consistent heap the slot of every cell is the place of its entry,
so the heap is a finite map from cells to values. Exchanges of entries keep the table consistent and
the map as it is, whatever the outcome of the comparisons, and every operation changes the map at
one cell only. -/

namespace Eikonal.IndexedHeap

variable {κ α : Type} [Ord κ]

/-- The slot table tells the place of every entry and knows no other cells. -/
def Consistent (h : IndexedHeap κ α) : Prop :=
  ∀ (c : κ) (i : Nat), h.slots[c]? = some i ↔ ∃ v, h.entries[i]? = some (Entry.mk v c)

variable {h h' : IndexedHeap κ α} {c d : κ} {v : α} {i j k : Nat}

theorem Consistent.place_unique (hc : h.Consistent) {a b : Entry κ α}
    (ha : h.entries[i]? = some a) (hb : h.entries[j]? = some b) (hab : a.cell = b.cell) :
    i = j := by
  have h1 := (hc a.cell i).mpr ⟨a.value, ha⟩
  have h2 := (hc b.cell j).mpr ⟨b.value, hb⟩
  rw [hab, h2] at h1
  exact (Option.some.inj h1).symm

theorem Consistent.cell_eq (hc : h.Consistent) {a : Entry κ α} (hs : h.slots[c]? = some i)
    (ha : h.entries[i]? = some a) : a.cell = c := by
  obtain ⟨v, hv⟩ := (hc c i).mp hs
  rw [ha] at hv
  cases hv
  rfl

theorem Consistent.key?_eq_some (hc : h.Consistent) :
    h.key? c = some v ↔ (⟨v, c⟩ : Entry κ α) ∈ h.entries := by
  have hk : h.key? c = (h.slots[c]?).bind fun i => (h.entries[i]?).bind fun e => some e.value := rfl
  rw [hk, Array.mem_iff_getElem?]
  constructor
  · intro h1
    obtain ⟨i, hi, h2⟩ := Option.bind_eq_some_iff.mp h1
    obtain ⟨w, hw⟩ := (hc c i).mp hi
    rw [hw] at h2
    cases h2
    exact ⟨i, hw⟩
  · rintro ⟨i, hi⟩
    rw [(hc c i).mpr ⟨v, hi⟩, Option.bind_some, hi]
    rfl

theorem Consistent.contains_eq [Std.TransOrd κ] (hc : h.Consistent) (c : κ) :
    h.contains c = (h.key? c).isSome := by
  unfold contains
  rw [Std.TreeMap.contains_eq_isSome_getElem?, Bool.eq_iff_iff, Option.isSome_iff_exists,
    Option.isSome_iff_exists]
  constructor
  · rintro ⟨i, hi⟩
    obtain ⟨v, hv⟩ := (hc c i).mp hi
    exact ⟨v, hc.key?_eq_some.mpr (Array.mem_of_getElem? hv)⟩
  · rintro ⟨v, hv⟩
    obtain ⟨i, hi⟩ := Array.mem_iff_getElem?.mp (hc.key?_eq_some.mp hv)
    exact ⟨i, (hc c i).mpr ⟨v, hi⟩⟩

theorem Consistent.nodup (hc : h.Consistent) : h.entries.toList.Nodup := by
  rw [List.nodup_iff_pairwise_ne, List.pairwise_iff_getElem]
  intro i j hi hj hij he
  have ha : h.entries[i]? = some h.entries.toList[i] := by simp
  have hb : h.entries[j]? = some h.entries.toList[j] := by simp
  have := hc.place_unique ha hb (by rw [he])
  omega

theorem Consistent.nodup_cells (hc : h.Consistent) : (h.entries.toList.map Entry.cell).Nodup := by
  refine hc.nodup.map_on fun a ha b hb hab => ?_
  obtain ⟨i, hi⟩ := Array.mem_iff_getElem?.mp (Array.mem_toList_iff.mp ha)
  obtain ⟨j, hj⟩ := Array.mem_iff_getElem?.mp (Array.mem_toList_iff.mp hb)
  rw [hc.place_unique hi hj hab, hj] at hi
  exact (Option.some.inj hi).symm

/-- Heaps with the same cells are of one size. -/
theorem Consistent.size_eq (hc : h.Consistent) (hc' : h'.Consistent)
    (hkey : ∀ c, (h'.key? c).isSome = (h.key? c).isSome) : h'.size = h.size := by
  have hmem : ∀ {h : IndexedHeap κ α}, h.Consistent → ∀ c,
      c ∈ h.entries.toList.map Entry.cell ↔ (h.key? c).isSome := by
    intro h hc c
    simp only [List.mem_map, Array.mem_toList_iff, Option.isSome_iff_exists, hc.key?_eq_some]
    exact ⟨fun ⟨e, he, hec⟩ => ⟨e.value, hec ▸ he⟩, fun ⟨v, hv⟩ => ⟨⟨v, c⟩, hv, rfl⟩⟩
  have hperm : (h'.entries.toList.map Entry.cell).Perm (h.entries.toList.map Entry.cell) := by
    rw [List.perm_ext_iff_of_nodup hc'.nodup_cells hc.nodup_cells]
    intro c
    rw [hmem hc', hmem hc, hkey]
  simpa [size] using hperm.length_eq

theorem consistent_empty [Std.TransOrd κ] : (empty : IndexedHeap κ α).Consistent := by
  intro c i
  simp [empty]

theorem key?_empty [Std.TransOrd κ] (c : κ) : (empty : IndexedHeap κ α).key? c = none := by
  have hk : (empty : IndexedHeap κ α).key? c =
    ((∅ : Std.TreeMap κ Nat)[c]?).bind fun i => (#[][i]? : Option (Entry κ α)).bind
      fun e => some e.value := rfl
  rw [hk, Std.TreeMap.getElem?_emptyc]
  rfl

/-! ### Exchanges -/

/-- After an exchange of two entries, slot `k` holds what the other slot held. -/
theorem getElem?_swap {a b : Entry κ α} (hi : h.entries[i]? = some a)
    (hj : h.entries[j]? = some b) (k : Nat) :
    (h.swap i j).entries[k]? = h.entries[Equiv.swap i j k]? := by
  have hil : i < h.entries.size := (Array.getElem?_eq_some_iff.mp hi).1
  have hjl : j < h.entries.size := (Array.getElem?_eq_some_iff.mp hj).1
  simp only [swap, hi, hj, Array.getElem?_setIfInBounds, Array.size_setIfInBounds, hil, hjl,
    Equiv.swap_apply_def]
  by_cases hkj : k = j
  · subst hkj
    by_cases hki : k = i
    · subst hki
      simp [hi]
    · simp [hi, hki]
  · by_cases hki : k = i
    · subst hki
      simp [hj, Ne.symm hkj]
    · simp [hki, hkj, Ne.symm hki, Ne.symm hkj]

theorem swap_eq_self (hij : h.entries[i]? = none ∨ h.entries[j]? = none) : h.swap i j = h := by
  unfold swap
  rcases hij with hn | hn
  · rw [hn]
  · rw [hn]
    split
    · contradiction
    · rfl

theorem mem_swap (h : IndexedHeap κ α) (i j : Nat) (e : Entry κ α) :
    e ∈ (h.swap i j).entries ↔ e ∈ h.entries := by
  cases hi : h.entries[i]? with
  | none => rw [swap_eq_self (Or.inl hi)]
  | some a =>
    cases hj : h.entries[j]? with
    | none => rw [swap_eq_self (Or.inr hj)]
    | some b =>
      simp only [Array.mem_iff_getElem?, getElem?_swap hi hj]
      constructor
      · rintro ⟨k, hk⟩
        exact ⟨_, hk⟩
      · rintro ⟨k, hk⟩
        exact ⟨Equiv.swap i j k, by rw [Equiv.swap_apply_self]; exact hk⟩

variable [Std.TransOrd κ] [Std.LawfulEqOrd κ]

theorem Consistent.swap (hc : h.Consistent) (i j : Nat) : (h.swap i j).Consistent := by
  cases hi : h.entries[i]? with
  | none => rwa [swap_eq_self (Or.inl hi)]
  | some a =>
    cases hj : h.entries[j]? with
    | none => rwa [swap_eq_self (Or.inr hj)]
    | some b =>
      intro c k
      have hs : (h.swap i j).slots = (h.slots.insert b.cell i).insert a.cell j := by
        simp [IndexedHeap.swap, hi, hj]
      rw [getElem?_swap hi hj, ← hc, hs, Std.TreeMap.getElem?_insert, Std.TreeMap.getElem?_insert]
      have hai := (hc a.cell i).mpr ⟨a.value, hi⟩
      have hbj := (hc b.cell j).mpr ⟨b.value, hj⟩
      -- the cell asked for is that of the first entry, that of the second one, or neither
      by_cases hca : a.cell = c
      · subst hca
        rw [if_pos Std.compare_self, hai, Option.some_inj, Option.some_inj, Equiv.swap_apply_def]
        grind
      · by_cases hcb : b.cell = c
        · subst hcb
          rw [if_neg (by simpa using hca), if_pos Std.compare_self, hbj, Option.some_inj,
            Option.some_inj, Equiv.swap_apply_def]
          grind
        · rw [if_neg (by simpa using hca), if_neg (by simpa using hcb), Equiv.swap_apply_def]
          have hni : h.slots[c]? ≠ some i := fun hs => hca (hc.cell_eq hs hi)
          have hnj : h.slots[c]? ≠ some j := fun hs => hcb (hc.cell_eq hs hj)
          grind

/-! ### Sifting -/

omit [Std.TransOrd κ] [Std.LawfulEqOrd κ] in
theorem mem_siftUp [Scalar α] (h : IndexedHeap κ α) (i : Nat) (e : Entry κ α) :
    e ∈ (h.siftUp i).entries ↔ e ∈ h.entries := by
  induction h, i using siftUp.induct with
  | case1 h i hi hp ih => rw [siftUp, if_pos hi, if_pos hp, ih, mem_swap]
  | case2 h i hi hp => rw [siftUp, if_pos hi, if_neg hp]
  | case3 h i hi => rw [siftUp, if_neg hi]

theorem Consistent.siftUp [Scalar α] (hc : h.Consistent) (i : Nat) : (h.siftUp i).Consistent := by
  induction h, i using IndexedHeap.siftUp.induct with
  | case1 h i hi hp ih =>
    rw [IndexedHeap.siftUp, if_pos hi, if_pos hp]
    exact ih (hc.swap i ((i - 1) / 2))
  | case2 h i hi hp => rwa [IndexedHeap.siftUp, if_pos hi, if_neg hp]
  | case3 h i hi => rwa [IndexedHeap.siftUp, if_neg hi]

omit [Std.TransOrd κ] [Std.LawfulEqOrd κ] in
theorem mem_siftDown [Scalar α] (h : IndexedHeap κ α) (i : Nat) (e : Entry κ α) :
    e ∈ (h.siftDown i).entries ↔ e ∈ h.entries := by
  induction h, i using siftDown.induct with
  | case1 h i hi hp ih => rw [siftDown, if_pos hi, if_pos hp, ih, mem_swap]
  | case2 h i hi hp => rw [siftDown, if_pos hi, if_neg hp]
  | case3 h i hi => rw [siftDown, if_neg hi]

theorem Consistent.siftDown [Scalar α] (hc : h.Consistent) (i : Nat) :
    (h.siftDown i).Consistent := by
  induction h, i using IndexedHeap.siftDown.induct with
  | case1 h i hi hp ih =>
    rw [IndexedHeap.siftDown, if_pos hi, if_pos hp]
    exact ih (hc.swap i (h.firstChild i))
  | case2 h i hi hp => rwa [IndexedHeap.siftDown, if_pos hi, if_neg hp]
  | case3 h i hi => rwa [IndexedHeap.siftDown, if_neg hi]

/-! ### Operations -/

/-- `h'` is consistent and holds what `h` holds but for the cell `c`, where it has `o`. -/
structure Differs (h : IndexedHeap κ α) (c : κ) (o : Option α) (h' : IndexedHeap κ α) : Prop where
  consistent : h'.Consistent
  mem_self : ∀ v, (⟨v, c⟩ : Entry κ α) ∈ h'.entries ↔ o = some v
  mem_ne : ∀ e : Entry κ α, e.cell ≠ c → (e ∈ h'.entries ↔ e ∈ h.entries)

section Differs

variable {o : Option α} (hd : h.Differs c o h')
include hd

omit [Std.TransOrd κ] [Std.LawfulEqOrd κ] in
theorem Differs.key?_self : h'.key? c = o := by
  apply Option.ext
  intro v
  rw [hd.consistent.key?_eq_some, hd.mem_self]

omit [Std.TransOrd κ] [Std.LawfulEqOrd κ] in
theorem Differs.key?_ne (hc : h.Consistent) (hne : d ≠ c) : h'.key? d = h.key? d := by
  apply Option.ext
  intro v
  rw [hd.consistent.key?_eq_some, hc.key?_eq_some]
  exact hd.mem_ne _ hne

theorem Differs.siftUp [Scalar α] (i : Nat) : h.Differs c o (h'.siftUp i) := by
  refine ⟨hd.consistent.siftUp i, fun v => ?_, fun e he => ?_⟩
  · rw [mem_siftUp, hd.mem_self]
  · rw [mem_siftUp, hd.mem_ne e he]

theorem Differs.siftDown [Scalar α] (i : Nat) : h.Differs c o (h'.siftDown i) := by
  refine ⟨hd.consistent.siftDown i, fun v => ?_, fun e he => ?_⟩
  · rw [mem_siftDown, hd.mem_self]
  · rw [mem_siftDown, hd.mem_ne e he]

end Differs

/-- The heap with a new last entry, before it is sifted. -/
def append (h : IndexedHeap κ α) (c : κ) (v : α) : IndexedHeap κ α :=
  { entries := h.entries.push ⟨v, c⟩, slots := h.slots.insert c h.entries.size }

theorem Consistent.append (hc : h.Consistent) (hn : h.slots[c]? = none) (v : α) :
    (h.append c v).Consistent := by
  intro d k
  simp only [IndexedHeap.append, Std.TreeMap.getElem?_insert, Array.getElem?_push]
  by_cases hk : k = h.entries.size
  · rw [if_pos hk]
    by_cases hd : c = d
    · rw [if_pos (by simp [hd]), hk, hd]
      exact ⟨fun _ => ⟨v, rfl⟩, fun _ => rfl⟩
    · rw [if_neg (by simpa using hd), hc, hk]
      simp [hd]
  · rw [if_neg hk]
    by_cases hd : c = d
    · subst hd
      rw [if_pos Std.compare_self, ← hc, hn]
      simpa using Ne.symm hk
    · rw [if_neg (by simpa using hd), hc]

theorem append_differs (hc : h.Consistent) (hn : h.slots[c]? = none) (v : α) :
    h.Differs c (some v) (h.append c v) := by
  refine ⟨hc.append hn v, fun w => ?_, fun e he => ?_⟩
  · have hno : (⟨w, c⟩ : Entry κ α) ∉ h.entries := by
      intro hm
      obtain ⟨i, hi⟩ := Array.mem_iff_getElem?.mp hm
      have := (hc c i).mpr ⟨w, hi⟩
      rw [hn] at this
      cases this
    simp [append, hno, eq_comm]
  · have hne : e ≠ ⟨v, c⟩ := by
      rintro rfl
      exact he rfl
    simp [append, hne]

/-- The heap with the entry of cell `c` in slot `i` replaced, before it is sifted. -/
def replace (h : IndexedHeap κ α) (i : Nat) (c : κ) (v : α) : IndexedHeap κ α :=
  { h with entries := h.entries.setIfInBounds i ⟨v, c⟩ }

omit [Std.TransOrd κ] [Std.LawfulEqOrd κ] in
theorem Consistent.replace (hc : h.Consistent) (hi : h.slots[c]? = some i) (v : α) :
    (h.replace i c v).Consistent := by
  intro d k
  obtain ⟨w, hw⟩ := (hc c i).mp hi
  have hlt : i < h.entries.size := (Array.getElem?_eq_some_iff.mp hw).1
  simp only [IndexedHeap.replace, Array.getElem?_setIfInBounds]
  rw [hc]
  grind

omit [Std.TransOrd κ] [Std.LawfulEqOrd κ] in
theorem replace_differs (hc : h.Consistent) (hi : h.slots[c]? = some i) (v : α) :
    h.Differs c (some v) (h.replace i c v) := by
  obtain ⟨u, hu⟩ := (hc c i).mp hi
  have hlt : i < h.entries.size := (Array.getElem?_eq_some_iff.mp hu).1
  have hself : (h.replace i c v).entries[i]? = some ⟨v, c⟩ := by
    simp [replace, hlt]
  have hother : ∀ k, k ≠ i → (h.replace i c v).entries[k]? = h.entries[k]? := by
    intro k hk
    simp [replace, Ne.symm hk]
  refine ⟨hc.replace hi v, fun w => ?_, fun e he => ?_⟩
  · constructor
    · intro hm
      obtain ⟨k, hk⟩ := Array.mem_iff_getElem?.mp hm
      have hki := (hc.replace hi v).place_unique hk hself rfl
      rw [hki, hself] at hk
      cases hk
      rfl
    · intro hw
      cases hw
      exact Array.mem_of_getElem? hself
  · simp only [Array.mem_iff_getElem?]
    constructor
    · rintro ⟨k, hk⟩
      have hki : k ≠ i := by
        rintro rfl
        rw [hself] at hk
        cases hk
        exact he rfl
      exact ⟨k, by rw [← hother k hki]; exact hk⟩
    · rintro ⟨k, hk⟩
      have hki : k ≠ i := by
        rintro rfl
        rw [hu] at hk
        cases hk
        exact he rfl
      exact ⟨k, by rw [hother k hki]; exact hk⟩

/-- The heap without its first entry, the last one in its place, before it is sifted. -/
def behead (h : IndexedHeap κ α) (first last : Entry κ α) : IndexedHeap κ α :=
  { entries := h.entries.pop.setIfInBounds 0 last
    slots := (h.slots.erase first.cell).insert last.cell 0 }

omit [Std.TransOrd κ] [Std.LawfulEqOrd κ] in
theorem getElem?_behead {first last : Entry κ α} (hn : 1 < h.entries.size) (k : Nat) :
    (h.behead first last).entries[k]? =
      if k = 0 then some last else if k + 1 < h.entries.size then h.entries[k]? else none := by
  simp only [behead, Array.getElem?_setIfInBounds, Array.size_pop, Array.getElem?_pop]
  by_cases hk : k = 0
  · subst hk
    simp
    omega
  · rw [if_neg (Ne.symm hk), if_neg hk]
    by_cases hlt : k + 1 < h.entries.size
    · rw [if_pos hlt, if_pos (by omega)]
    · rw [if_neg hlt, if_neg (by omega)]

section Behead

variable {first last : Entry κ α} (hc : h.Consistent) (h0 : h.entries[0]? = some first)
  (hl : h.entries[h.entries.size - 1]? = some last) (hn : 1 < h.entries.size)
include hc h0 hl hn

omit [Std.TransOrd κ] [Std.LawfulEqOrd κ] in
/-- The last entry comes first, and all entries but it and the first one keep their places. -/
theorem getElem?_behead_eq_some {k : Nat} {e : Entry κ α} :
    (h.behead first last).entries[k]? = some e ↔
      (k = 0 ∧ e = last) ∨
        (e.cell ≠ first.cell ∧ e.cell ≠ last.cell ∧ h.entries[k]? = some e) := by
  rw [getElem?_behead hn]
  constructor
  · intro hk
    split at hk
    · rename_i hk0
      exact Or.inl ⟨hk0, (Option.some.inj hk).symm⟩
    · split at hk
      · rename_i hk0 hlt
        refine Or.inr ⟨fun he => hk0 (hc.place_unique hk h0 he), fun he => ?_, hk⟩
        have := hc.place_unique hk hl he
        omega
      · cases hk
  · rintro (⟨rfl, rfl⟩ | ⟨hf, hla, hk⟩)
    · rfl
    · have hk0 : k ≠ 0 := by
        rintro rfl
        rw [h0] at hk
        cases hk
        exact hf rfl
      have hkl : k ≠ h.entries.size - 1 := by
        rintro rfl
        rw [hl] at hk
        cases hk
        exact hla rfl
      have hlt := (Array.getElem?_eq_some_iff.mp hk).1
      rw [if_neg hk0, if_pos (by omega), hk]

theorem Consistent.behead : (h.behead first last).Consistent := by
  have hne : first.cell ≠ last.cell := by
    intro heq
    have := hc.place_unique h0 hl heq
    omega
  intro d k
  simp only [getElem?_behead_eq_some hc h0 hl hn]
  simp only [IndexedHeap.behead, Std.TreeMap.getElem?_insert, Std.TreeMap.getElem?_erase]
  by_cases hdl : last.cell = d
  · subst hdl
    rw [if_pos Std.compare_self, Option.some_inj]
    constructor
    · intro hk
      exact ⟨last.value, Or.inl ⟨hk.symm, rfl⟩⟩
    · rintro ⟨v, ⟨hk, -⟩ | ⟨-, hla, -⟩⟩
      · exact hk.symm
      · exact absurd rfl hla
  · rw [if_neg (by simpa using hdl)]
    by_cases hdf : first.cell = d
    · subst hdf
      rw [if_pos Std.compare_self]
      constructor
      · intro hk
        cases hk
      · rintro ⟨v, ⟨-, rfl⟩ | ⟨hf, -, -⟩⟩
        · exact absurd rfl hne
        · exact absurd rfl hf
    · rw [if_neg (by simpa using hdf), hc]
      constructor
      · rintro ⟨v, hv⟩
        exact ⟨v, Or.inr ⟨Ne.symm hdf, Ne.symm hdl, hv⟩⟩
      · rintro ⟨v, ⟨-, rfl⟩ | ⟨-, -, hv⟩⟩
        · exact absurd rfl hdl
        · exact ⟨v, hv⟩

theorem behead_differs : h.Differs first.cell none (h.behead first last) := by
  refine ⟨hc.behead h0 hl hn, fun v => ?_, fun e he => ?_⟩
  · simp only [Array.mem_iff_getElem?, getElem?_behead_eq_some hc h0 hl hn, reduceCtorEq,
      iff_false]
    rintro ⟨k, ⟨-, rfl⟩ | ⟨hf, -, -⟩⟩
    · have := hc.place_unique h0 hl rfl
      omega
    · exact hf rfl
  · simp only [Array.mem_iff_getElem?, getElem?_behead_eq_some hc h0 hl hn]
    constructor
    · rintro ⟨k, ⟨-, rfl⟩ | ⟨-, -, hk⟩⟩
      · exact ⟨_, hl⟩
      · exact ⟨k, hk⟩
    · rintro ⟨k, hk⟩
      by_cases hel : e.cell = last.cell
      · rw [hc.place_unique hk hl hel, hl] at hk
        exact ⟨0, Or.inl ⟨rfl, (Option.some.inj hk).symm⟩⟩
      · exact ⟨k, Or.inr ⟨he, hel, hk⟩⟩

end Behead

/-- The heap without its only entry. -/
def clearFirst (h : IndexedHeap κ α) (first : Entry κ α) : IndexedHeap κ α :=
  { entries := h.entries.pop, slots := h.slots.erase first.cell }

theorem clearFirst_differs {first : Entry κ α} (hc : h.Consistent)
    (h0 : h.entries[0]? = some first) (hn : h.entries.size = 1) :
    h.Differs first.cell none (h.clearFirst first) := by
  have hent : (h.clearFirst first).entries = #[] := by
    apply Array.eq_empty_of_size_eq_zero
    simp [clearFirst, hn]
  have hplace : ∀ (e : Entry κ α) (k : Nat), h.entries[k]? = some e → e = first := by
    intro e k hk
    have hlt := (Array.getElem?_eq_some_iff.mp hk).1
    rw [show k = 0 by omega, h0] at hk
    exact (Option.some.inj hk).symm
  refine ⟨fun d k => ?_, fun v => ?_, fun e he => ?_⟩
  · rw [hent]
    simp only [clearFirst, Std.TreeMap.getElem?_erase]
    constructor
    · intro hs
      split at hs
      · cases hs
      · rename_i hne
        obtain ⟨v, hv⟩ := (hc d k).mp hs
        have := hplace _ _ hv
        exact absurd (by rw [← this]; exact Std.compare_self) hne
    · rintro ⟨v, hv⟩
      simp at hv
  · rw [hent]
    simp
  · rw [hent]
    simp only [Array.not_mem_empty, false_iff]
    intro hm
    obtain ⟨k, hk⟩ := Array.mem_iff_getElem?.mp hm
    exact he (by rw [hplace e k hk])

/-! ### Operations that succeed -/

section Scalar

variable [Scalar α]

omit [Std.LawfulEqOrd κ] in
theorem push_eq (hc : h.Consistent) (hn : h.key? c = none) (v : α) :
    h.push c v = .ok ((h.append c v).siftUp h.entries.size) := by
  unfold push
  rw [hc.contains_eq, hn]
  rfl

theorem push_differs (hc : h.Consistent) (hn : h.key? c = none) (v : α) :
    h.Differs c (some v) ((h.append c v).siftUp h.entries.size) := by
  refine (append_differs hc ?_ v).siftUp _
  have hno := hc.contains_eq c
  rw [hn, contains, Std.TreeMap.contains_eq_isSome_getElem?] at hno
  exact Option.isNone_iff_eq_none.mp (Option.isSome_eq_false_iff.mp hno)

omit [Std.TransOrd κ] [Std.LawfulEqOrd κ] [Scalar α] in
/-- A cell with a value has a slot that holds it. -/
theorem Consistent.exists_slot (hc : h.Consistent) (hk : h.key? c = some v) :
    ∃ i, h.slots[c]? = some i ∧ h.entries[i]? = some ⟨v, c⟩ := by
  obtain ⟨i, hi⟩ := Array.mem_iff_getElem?.mp (hc.key?_eq_some.mp hk)
  exact ⟨i, (hc c i).mpr ⟨v, hi⟩, hi⟩

omit [Std.TransOrd κ] [Std.LawfulEqOrd κ] in
theorem decreaseKey_eq {old : α} (hs : h.slots[c]? = some i) (hi : h.entries[i]? = some ⟨old, c⟩)
    (hlt : Scalar.lt old v = false) : h.decreaseKey c v = .ok ((h.replace i c v).siftUp i) := by
  simp [decreaseKey, hs, hi, hlt, replace]

omit [Std.TransOrd κ] [Std.LawfulEqOrd κ] in
theorem pop_empty (hn : h.entries.size = 0) : h.pop = .error .popEmpty := by
  have h0 : h.entries[0]? = none := by simp [hn]
  simp [pop, h0]

omit [Std.TransOrd κ] [Std.LawfulEqOrd κ] in
theorem pop_single {first : Entry κ α} (h0 : h.entries[0]? = some first)
    (hn : h.entries.size = 1) : h.pop = .ok (first, h.clearFirst first) := by
  have hl : h.entries.back? = some first := by
    rw [Array.back?_eq_getElem?, hn]
    exact h0
  have he : h.entries.pop.isEmpty = true := by simp [Array.isEmpty, hn]
  simp only [pop, h0, hl, he, if_true, clearFirst]

omit [Std.TransOrd κ] [Std.LawfulEqOrd κ] in
theorem pop_many {first last : Entry κ α} (h0 : h.entries[0]? = some first)
    (hl : h.entries[h.entries.size - 1]? = some last) (hn : 1 < h.entries.size) :
    h.pop = .ok (first, (h.behead first last).siftDown 0) := by
  have hb : h.entries.back? = some last := by
    rw [Array.back?_eq_getElem?]
    exact hl
  have hne : h.entries.pop.isEmpty = false := by
    simp only [Array.isEmpty, Array.size_pop, decide_eq_false_iff_not]
    omega
  simp only [pop, h0, hb, hne, behead]
  rfl

end Scalar

end Eikonal.IndexedHeap
