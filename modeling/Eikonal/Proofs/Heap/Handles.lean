import Eikonal.Proofs.Heap.Calls

/-! Handles. The comparisons of a heap may come out in any way, as they do once NaNs are in it: the
slot table still agrees with the entries after every call, and a call changes the entries by what it
answers. One entry is added, taken out or given another value; a refused call changes nothing. -/

namespace Eikonal

/-- Calls that only ask. -/
def HeapCall.isQuestion {κ α : Type} : HeapCall κ α → Bool
  | top => true
  | key _ => true
  | contains _ => true
  | size => true
  | _ => false

namespace IndexedHeap

variable {κ α : Type} [Ord κ]

/-- The slot table and the entries tell the same. -/
structure HandlesAgree (h : IndexedHeap κ α) : Prop where
  place_unique : ∀ (i j : Nat) (a b : Entry κ α), h.entries[i]? = some a → h.entries[j]? = some b →
    a.cell = b.cell → i = j
  contains_iff : ∀ c, h.contains c ↔ ∃ e ∈ h.entries, e.cell = c
  entry_of_slot : ∀ (c : κ) (i : Nat), h.slots[c]? = some i → ∃ v, h.entries[i]? = some ⟨v, c⟩
  slotCount_eq : h.slotCount = h.size

/-- When a call is refused. -/
def Refuses [Scalar α] (h : IndexedHeap κ α) : HeapCall κ α → Prop
  | .push c _ => h.contains c
  | .pop => h.size = 0
  | .top => h.size = 0
  | .decreaseKey c v => ∀ old, (Entry.mk old c) ∈ h.entries → Scalar.lt old v
  | .key c => ¬h.contains c
  | _ => False

/-- How a call with the given answer changes the entries. -/
inductive Effect (h : IndexedHeap κ α) : HeapCall κ α →
    Except (HeapError κ α) (HeapAnswer κ α) → IndexedHeap κ α → Prop
  | push {c : κ} {v : α} {h' : IndexedHeap κ α} :
    h'.entries.toList.Perm (⟨v, c⟩ :: h.entries.toList) → Effect h (.push c v) (.ok .done) h'
  | pop {e : Entry κ α} {h' : IndexedHeap κ α} :
    h.entries.toList.Perm (e :: h'.entries.toList) → Effect h .pop (.ok (.entry e)) h'
  | decreaseKey {c : κ} {v old : α} {others : List (Entry κ α)} {h' : IndexedHeap κ α} :
    h.entries.toList.Perm (⟨old, c⟩ :: others) → h'.entries.toList.Perm (⟨v, c⟩ :: others) →
      Effect h (.decreaseKey c v) (.ok .done) h'
  | clear {h' : IndexedHeap κ α} : h'.entries = #[] → Effect h .clear (.ok .done) h'
  | question {k : HeapCall κ α} {a : HeapAnswer κ α} {h' : IndexedHeap κ α} :
    k.isQuestion → h' = h → Effect h k (.ok a) h'
  | refused {k : HeapCall κ α} {e : HeapError κ α} {h' : IndexedHeap κ α} :
    h' = h → Effect h k (.error e) h'

variable {h h' : IndexedHeap κ α} {c : κ} {v : α} {o : Option α}

theorem Consistent.contains_iff [Std.TransOrd κ] (hc : h.Consistent) (c : κ) :
    h.contains c ↔ ∃ e ∈ h.entries, e.cell = c := by
  rw [hc.contains_eq, Option.isSome_iff_exists]
  constructor
  · rintro ⟨v, hv⟩
    exact ⟨_, hc.key?_eq_some.mp hv, rfl⟩
  · rintro ⟨e, he, rfl⟩
    exact ⟨e.value, hc.key?_eq_some.mpr he⟩

/-- A consistent heap has a slot for each of its entries and no more. -/
theorem Consistent.slotCount_eq [Std.TransOrd κ] [Std.LawfulEqOrd κ] (hc : h.Consistent) :
    h.slotCount = h.size := by
  have hkeys : h.slots.keys.Nodup := by
    refine h.slots.distinct_keys.imp fun {a b} hab heq => hab ?_
    rw [heq]
    exact Std.compare_self
  have hperm : h.slots.keys.Perm (h.entries.toList.map Entry.cell) := by
    refine (List.perm_ext_iff_of_nodup hkeys hc.nodup_cells).mpr fun c => ?_
    rw [Std.TreeMap.mem_keys, ← Std.TreeMap.contains_iff_mem, List.mem_map]
    simp only [Array.mem_toList_iff]
    exact hc.contains_iff c
  have hlen := hperm.length_eq
  rwa [Std.TreeMap.length_keys, List.length_map, Array.length_toList] at hlen

/-! ### Changes at one cell -/

open Classical in
/-- The entries of a heap are the one of a cell, if it has one, and the others. -/
theorem Consistent.perm_append_filter (hc : h.Consistent)
    (ho : ∀ v, (⟨v, c⟩ : Entry κ α) ∈ h.entries ↔ o = some v) :
    h.entries.toList.Perm
      (o.toList.map (Entry.mk · c) ++ h.entries.toList.filter (·.cell ≠ c)) := by
  have hnodup : (o.toList.map (Entry.mk · c) ++ h.entries.toList.filter (·.cell ≠ c)).Nodup := by
    refine List.Nodup.append ?_ (hc.nodup.filter _) ?_
    · cases o <;> simp
    · intro e he hf
      obtain ⟨v, -, rfl⟩ := List.mem_map.mp he
      simp at hf
  refine (List.perm_ext_iff_of_nodup hc.nodup hnodup).mpr fun e => ?_
  rw [List.mem_append, List.mem_filter, List.mem_map, Array.mem_toList_iff]
  by_cases he : e.cell = c
  · obtain ⟨w, d⟩ := e
    subst he
    rw [ho w]
    simp
  · have hmap : ¬∃ v ∈ o.toList, Entry.mk v c = e := by
      rintro ⟨v, -, rfl⟩
      exact he rfl
    rw [or_iff_right hmap, and_iff_left (by simpa using he)]

/-- Heaps that differ at one cell only have the same entries beside those of the cell. -/
theorem Differs.exists_others (hc : h.Consistent) (hd : h.Differs c o h') :
    ∃ others : List (Entry κ α),
      h.entries.toList.Perm ((h.key? c).toList.map (Entry.mk · c) ++ others) ∧
        h'.entries.toList.Perm (o.toList.map (Entry.mk · c) ++ others) := by
  classical
  refine ⟨_, hc.perm_append_filter fun v => hc.key?_eq_some.symm, ?_⟩
  refine (hd.consistent.perm_append_filter hd.mem_self).trans (List.Perm.append_left _ ?_)
  refine (List.perm_ext_iff_of_nodup (hd.consistent.nodup.filter _) (hc.nodup.filter _)).mpr ?_
  intro e
  simp only [List.mem_filter, Array.mem_toList_iff, decide_eq_true_eq]
  exact and_congr_left fun he => hd.mem_ne e he

variable [Std.TransOrd κ] [Std.LawfulEqOrd κ]

theorem Consistent.handlesAgree (hc : h.Consistent) : h.HandlesAgree where
  place_unique _ _ _ _ ha hb hab := hc.place_unique ha hb hab
  contains_iff := hc.contains_iff
  entry_of_slot c i hs := (hc c i).mp hs
  slotCount_eq := hc.slotCount_eq

variable [Scalar α]

/-- A consistent heap in use gives out an entry that it holds. -/
theorem Consistent.exists_pop (hc : h.Consistent) (hs : 0 < h.entries.size) :
    ∃ e h', h.pop = .ok (e, h') ∧ h.key? e.cell = some e.value ∧ h.Differs e.cell none h' := by
  have h0 := Array.getElem?_eq_getElem hs
  have hkey : h.key? h.entries[0].cell = some h.entries[0].value :=
    hc.key?_eq_some.mpr (Array.getElem_mem hs)
  by_cases hone : h.entries.size = 1
  · exact ⟨_, _, pop_single h0 hone, hkey, clearFirst_differs hc h0 hone⟩
  · have hl := Array.getElem?_eq_getElem (show h.entries.size - 1 < h.entries.size by omega)
    exact ⟨_, _, pop_many h0 hl (by omega), hkey, (behead_differs hc h0 hl (by omega)).siftDown 0⟩

/-! ### Calls -/

theorem Consistent.call_push (hc : h.Consistent) (c : κ) (v : α) :
    (h.call (.push c v)).2.Consistent ∧
      Effect h (.push c v) (h.call (.push c v)).1 (h.call (.push c v)).2 ∧
      ((∃ e, (h.call (.push c v)).1 = .error e) ↔ h.Refuses (.push c v)) := by
  by_cases hin : h.contains c
  · have hpush : h.push c v = .error (.duplicate c) := by simp [push, hin]
    simp only [call, hpush]
    exact ⟨hc, .refused rfl, fun _ => hin, fun _ => ⟨_, rfl⟩⟩
  · have hnone : h.key? c = none := by
      rw [hc.contains_eq] at hin
      simpa using hin
    have hd := push_differs hc hnone v
    obtain ⟨others, hold, hnew⟩ := hd.exists_others hc
    rw [hnone] at hold
    simp only [call, push_eq hc hnone v]
    exact ⟨hd.consistent, .push (hnew.trans (hold.symm.cons _)), iff_of_false (by simp) hin⟩

theorem Consistent.call_pop (hc : h.Consistent) :
    (h.call .pop).2.Consistent ∧ Effect h .pop (h.call .pop).1 (h.call .pop).2 ∧
      ((∃ e, (h.call .pop).1 = .error e) ↔ h.Refuses .pop) := by
  by_cases hs : h.entries.size = 0
  · simp only [call, pop_empty hs]
    exact ⟨hc, .refused rfl, fun _ => hs, fun _ => ⟨_, rfl⟩⟩
  · obtain ⟨e, h', hpop, hkey, hd⟩ := hc.exists_pop (by omega)
    obtain ⟨others, hold, hnew⟩ := hd.exists_others hc
    rw [hkey] at hold
    simp only [call, hpop]
    exact ⟨hd.consistent, .pop (hold.trans (hnew.symm.cons _)), iff_of_false (by simp) hs⟩

theorem Consistent.call_decreaseKey (hc : h.Consistent) (c : κ) (v : α) :
    (h.call (.decreaseKey c v)).2.Consistent ∧
      Effect h (.decreaseKey c v) (h.call (.decreaseKey c v)).1 (h.call (.decreaseKey c v)).2 ∧
      ((∃ e, (h.call (.decreaseKey c v)).1 = .error e) ↔ h.Refuses (.decreaseKey c v)) := by
  have hmem := fun old => hc.key?_eq_some (c := c) (v := old)
  cases hk : h.key? c with
  | none =>
    simp only [call, decreaseKey_missing hc hk v]
    refine ⟨hc, .refused rfl, fun _ old hold => ?_, fun _ => ⟨_, rfl⟩⟩
    rw [← hmem, hk] at hold
    cases hold
  | some old =>
    obtain ⟨i, hs, hi⟩ := hc.exists_slot hk
    have hunique : ∀ w, (⟨w, c⟩ : Entry κ α) ∈ h.entries → w = old := by
      intro w hw
      rw [← hmem, hk] at hw
      exact (Option.some.inj hw).symm
    by_cases hlt : Scalar.lt old v
    · simp only [call, decreaseKey_increase hs hi hlt]
      exact ⟨hc, .refused rfl, fun _ w hw => by rw [hunique w hw]; exact hlt, fun _ => ⟨_, rfl⟩⟩
    · have hd := (replace_differs hc hs v).siftUp i
      obtain ⟨others, hold, hnew⟩ := hd.exists_others hc
      rw [hk] at hold
      simp only [call, decreaseKey_eq hs hi (by simpa using hlt)]
      exact ⟨hd.consistent, .decreaseKey hold hnew,
        iff_of_false (by simp) fun hr => hlt (hr old ((hmem old).mp hk))⟩

/-- Every call keeps a heap consistent and changes its entries by what it answers. -/
theorem Consistent.call (hc : h.Consistent) (k : HeapCall κ α) :
    (h.call k).2.Consistent ∧ Effect h k (h.call k).1 (h.call k).2 ∧
      ((∃ e, (h.call k).1 = .error e) ↔ h.Refuses k) := by
  cases k with
  | push c v => exact hc.call_push c v
  | pop => exact hc.call_pop
  | decreaseKey c v => exact hc.call_decreaseKey c v
  | top =>
    by_cases hs : h.entries.size = 0
    · have h0 : h.entries[0]? = none := by simp [hs]
      simp only [IndexedHeap.call, top, h0]
      exact ⟨hc, .refused rfl, fun _ => hs, fun _ => ⟨_, rfl⟩⟩
    · have h0 := Array.getElem?_eq_getElem (show 0 < h.entries.size by omega)
      simp only [IndexedHeap.call, top, h0]
      exact ⟨hc, .question rfl rfl, iff_of_false (by simp [Except.map]) hs⟩
  | key c =>
    have hin := hc.contains_eq c
    cases hk : h.key? c with
    | none =>
      rw [hk] at hin
      simp only [IndexedHeap.call, key, hk]
      exact ⟨hc, .refused rfl, fun _ => by simp [Refuses, hin], fun _ => ⟨_, rfl⟩⟩
    | some v =>
      rw [hk] at hin
      simp only [IndexedHeap.call, key, hk]
      exact ⟨hc, .question rfl rfl, iff_of_false (by simp [Except.map]) fun hr => hr hin⟩
  | contains c => exact ⟨hc, .question rfl rfl, iff_of_false (by simp [IndexedHeap.call]) id⟩
  | size => exact ⟨hc, .question rfl rfl, iff_of_false (by simp [IndexedHeap.call]) id⟩
  | clear => exact ⟨consistent_empty, .clear rfl, iff_of_false (by simp [IndexedHeap.call]) id⟩

theorem Consistent.history (hc : h.Consistent) (ks : List (HeapCall κ α)) :
    (after IndexedHeap.call h ks).Consistent := by
  induction ks generalizing h with
  | nil => exact hc
  | cons k ks ih => exact ih (hc.call k).1

/-- However a new heap is used, with whatever values and refused calls included, its handles agree
with its entries after the next call. The call changes the entries by what it answers, and if it is
refused, the heap stays as it is. -/
theorem handles_never_stale (ks : List (HeapCall κ α)) (k : HeapCall κ α) :
    let h := after IndexedHeap.call (empty : IndexedHeap κ α) ks
    let h' := (h.call k).2
    h'.HandlesAgree ∧ Effect h k (h.call k).1 h' ∧
      ((∃ e, (h.call k).1 = .error e) ↔ h.Refuses k) ∧
      ∀ e, (h.call k).1 = .error e → h' = h := by
  intro h h'
  obtain ⟨hc, heffect, hrefuses⟩ := (consistent_empty.history ks).call k
  refine ⟨hc.handlesAgree, heffect, hrefuses, fun e he => ?_⟩
  change Effect h k (h.call k).1 h' at heffect
  rw [he] at heffect
  cases heffect with
  | refused heq => exact heq

/-- A NaN stays on top of a lesser value until it is taken out. -/
theorem handles_never_stale_sample :
    let ks : List (HeapCall Nat Float) :=
      [.push 3 nan, .push 0 1, .push 3 0.5, .push 7 2, .decreaseKey 7 nan]
    let h := after IndexedHeap.call empty ks
    (h.call .pop).2.HandlesAgree ∧ Effect h .pop (h.call .pop).1 (h.call .pop).2 :=
  ⟨(handles_never_stale _ _).1, (handles_never_stale _ _).2.1⟩

end IndexedHeap

end Eikonal
