import Eikonal.Proofs.Heap.Order
import Eikonal.Proofs.Scalar.Binary64
import Std.Data.ExtTreeMap

/-! Histories of calls. Whatever is called on a heap, refused calls included, it answers as a finite
map from cells to values does that is searched for its first entry, where entries are ordered by
value and then by cell. Draining the heap afterwards lists the map in this order. -/

namespace Eikonal

inductive HeapCall (κ α : Type) where
  | push (cell : κ) (value : α)
  | pop
  | top
  | decreaseKey (cell : κ) (value : α)
  | key (cell : κ)
  | contains (cell : κ)
  | size
  | clear

/-- What a call gives back unless it is refused. -/
inductive HeapAnswer (κ α : Type) where
  | done
  | entry (e : Entry κ α)
  | value (v : α)
  | truth (b : Bool)
  | count (n : Nat)
deriving DecidableEq

section Calls

variable {κ α σ : Type}

def HeapCall.value? : HeapCall κ α → Option α
  | push _ v => some v
  | decreaseKey _ v => some v
  | _ => none

/-- The answers to a history of calls, one after the other. -/
def answers (call : σ → HeapCall κ α → Except (HeapError κ α) (HeapAnswer κ α) × σ) (s : σ) :
    List (HeapCall κ α) → List (Except (HeapError κ α) (HeapAnswer κ α))
  | [] => []
  | c :: cs => (call s c).1 :: answers call (call s c).2 cs

def after (call : σ → HeapCall κ α → Except (HeapError κ α) (HeapAnswer κ α) × σ) (s : σ)
    (cs : List (HeapCall κ α)) : σ :=
  cs.foldl (fun s c => (call s c).2) s

variable [Ord κ] [Scalar α]

namespace IndexedHeap

/-- The answer to a call and the heap it leaves. A refused call leaves the heap as it is. -/
def call (h : IndexedHeap κ α) :
    HeapCall κ α → Except (HeapError κ α) (HeapAnswer κ α) × IndexedHeap κ α
  | .push c v =>
    match h.push c v with
    | .ok h' => (.ok .done, h')
    | .error e => (.error e, h)
  | .pop =>
    match h.pop with
    | .ok (e, h') => (.ok (.entry e), h')
    | .error e => (.error e, h)
  | .top => (h.top.map .entry, h)
  | .decreaseKey c v =>
    match h.decreaseKey c v with
    | .ok h' => (.ok .done, h')
    | .error e => (.error e, h)
  | .key c => ((h.key c).map .value, h)
  | .contains c => (.ok (.truth (h.contains c)), h)
  | .size => (.ok (.count h.size), h)
  | .clear => (.ok .done, empty)

/-- The entries in the order in which `pop` takes them out. -/
def drain (h : IndexedHeap κ α) : List (Entry κ α) :=
  match _hp : h.pop with
  | .ok (e, h') => e :: drain h'
  | .error _ => []
termination_by h.size
decreasing_by
  have := size_pop ‹_›
  omega

end IndexedHeap

/-! ### Finite maps -/

abbrev CellMap (κ α : Type) [Ord κ] := Std.ExtTreeMap κ α

namespace CellMap

variable [Std.TransOrd κ]

def entries (m : CellMap κ α) : List (Entry κ α) := m.toList.map fun p => ⟨p.2, p.1⟩

/-- The entry that no other one comes before. -/
def first? (m : CellMap κ α) : Option (Entry κ α) :=
  m.entries.find? fun e => m.entries.all fun d => !d.before e

def call (m : CellMap κ α) :
    HeapCall κ α → Except (HeapError κ α) (HeapAnswer κ α) × CellMap κ α
  | .push c v =>
    if m.contains c then (.error (.duplicate c), m) else (.ok .done, m.insert c v)
  | .pop =>
    match m.first? with
    | some e => (.ok (.entry e), m.erase e.cell)
    | none => (.error .popEmpty, m)
  | .top =>
    match m.first? with
    | some e => (.ok (.entry e), m)
    | none => (.error .topEmpty, m)
  | .decreaseKey c v =>
    match m[c]? with
    | some old =>
      if Scalar.lt old v then (.error (.increase c old v), m) else (.ok .done, m.insert c v)
    | none => (.error (.missing c), m)
  | .key c =>
    match m[c]? with
    | some v => (.ok (.value v), m)
    | none => (.error (.missing c), m)
  | .contains c => (.ok (.truth (m.contains c)), m)
  | .size => (.ok (.count m.size), m)
  | .clear => (.ok .done, ∅)

end CellMap

end Calls

namespace IndexedHeap

variable {κ α : Type} [Ord κ] [Scalar α] {h h' : IndexedHeap κ α} {e : Entry κ α} {c : κ} {v : α}

/-! ### Draining -/

theorem drain_of_ok (hp : h.pop = .ok (e, h')) : h.drain = e :: h'.drain := by
  rw [drain]
  split
  · rename_i e1 h1 hp1
    rw [hp] at hp1
    cases hp1
    rfl
  · rename_i hp1
    rw [hp] at hp1
    cases hp1

theorem drain_of_empty (hs : h.entries.size = 0) : h.drain = [] := by
  rw [drain]
  split
  · rename_i hp
    rw [pop_empty hs] at hp
    cases hp
  · rfl

variable [Std.TransOrd κ] [Std.LawfulEqOrd κ]

theorem before_or_before [OrderedScalar α] {a b : Entry κ α} (ha : Scalar.isNaN a.value = false)
    (hb : Scalar.isNaN b.value = false) (hab : a.cell ≠ b.cell) : a.before b ∨ b.before a := by
  by_contra hn
  rw [not_or, Bool.not_eq_true, Bool.not_eq_true] at hn
  exact hab (Entry.cell_eq_of_not_before ha hb hn.2 hn.1)

theorem Valid.drain [OrderedScalar α] (hh : h.Valid) :
    h.drain.Pairwise (fun a b => a.before b) ∧ ∀ e, e ∈ h.drain ↔ e ∈ h.entries := by
  induction hn : h.size generalizing h with
  | zero =>
    rw [drain_of_empty hn, Array.eq_empty_of_size_eq_zero hn]
    simp
  | succ n ih =>
    obtain ⟨e, h', hpop, hh', hkey, hd, hfirst⟩ := hh.pop (by unfold size at hn; omega)
    have hsize := size_pop hpop
    obtain ⟨hsorted, hmem⟩ := ih hh' (by omega)
    have he := hh.consistent.key?_eq_some.mp hkey
    rw [drain_of_ok hpop]
    constructor
    · rw [List.pairwise_cons]
      refine ⟨fun d hdm => ?_, hsorted⟩
      have hd' := (hmem d).mp hdm
      -- the cell of `e` has left the heap, so `d` belongs to another one and they cannot tie
      have hne : d.cell ≠ e.cell := by
        intro hc
        have hnone := hd.mem_self d.value
        rw [← hc] at hnone
        cases hnone.mp hd'
      have hdh := (hd.mem_ne d hne).mp hd'
      apply (before_or_before (hh.numeric _ he) (hh.numeric d hdh) hne.symm).resolve_right
      rw [hfirst d.cell d.value (hh.consistent.key?_eq_some.mpr hdh)]
      decide
    · intro d
      rw [List.mem_cons, hmem]
      by_cases hc : d.cell = e.cell
      · obtain ⟨w, k⟩ := d
        subst hc
        rw [hd.mem_self, ← hh.consistent.key?_eq_some, hkey]
        cases e
        simp [eq_comm]
      · rw [hd.mem_ne d hc, or_iff_right_iff_imp]
        rintro rfl
        exact absurd rfl hc

/-! ### Refused calls -/

omit [Std.TransOrd κ] [Std.LawfulEqOrd κ] in
theorem getElem?_zero_of_pop (hp : h.pop = .ok (e, h')) : h.entries[0]? = some e := by
  unfold pop at hp
  split at hp
  · rename_i first last h0 hl
    rw [h0]
    dsimp only at hp
    split at hp <;> cases hp <;> rfl
  · cases hp

omit [Std.TransOrd κ] [Std.LawfulEqOrd κ] in
theorem decreaseKey_missing (hc : h.Consistent) (hk : h.key? c = none) (v : α) :
    h.decreaseKey c v = .error (.missing c) := by
  have hs : h.slots[c]? = none := by
    by_contra hn
    obtain ⟨i, hi⟩ := Option.ne_none_iff_exists'.mp hn
    obtain ⟨w, hw⟩ := (hc c i).mp hi
    rw [hc.key?_eq_some.mpr (Array.mem_of_getElem? hw)] at hk
    cases hk
  simp [decreaseKey, hs]

omit [Std.TransOrd κ] [Std.LawfulEqOrd κ] in
theorem decreaseKey_increase {i : Nat} {old : α} (hs : h.slots[c]? = some i)
    (hi : h.entries[i]? = some ⟨old, c⟩) (hlt : Scalar.lt old v) :
    h.decreaseKey c v = .error (.increase c old v) := by
  simp [decreaseKey, hs, hi, hlt]

/-! ### Heaps and maps -/

/-- The map `m` has the cells and values of the valid heap `h`. -/
structure Represents (h : IndexedHeap κ α) (m : CellMap κ α) : Prop where
  valid : h.Valid
  getElem? : ∀ c, m[c]? = h.key? c

namespace Represents

variable {m : CellMap κ α} {o : Option α}

omit [Std.LawfulEqOrd κ] in
theorem empty : Represents (IndexedHeap.empty : IndexedHeap κ α) ∅ :=
  ⟨valid_empty, fun c => by rw [key?_empty, Std.ExtTreeMap.getElem?_empty]⟩

/-- A change at one cell of the heap is followed by the map that changes there alike. -/
theorem of_differs {m' : CellMap κ α} (hr : Represents h m) (hv : h'.Valid)
    (hd : h.Differs c o h')
    (hm : ∀ d, m'[d]? = if compare c d = .eq then o else m[d]?) : Represents h' m' := by
  refine ⟨hv, fun d => ?_⟩
  rw [hm]
  by_cases hcd : c = d
  · rw [hcd, if_pos Std.compare_self, ← hcd, hd.key?_self]
  · rw [if_neg (by simpa using hcd), hr.getElem?, hd.key?_ne hr.valid.consistent (Ne.symm hcd)]

theorem insert (hr : Represents h m) (hv : h'.Valid) (hd : h.Differs c (some v) h') :
    Represents h' (m.insert c v) :=
  hr.of_differs hv hd fun _ => Std.ExtTreeMap.getElem?_insert

theorem erase (hr : Represents h m) (hv : h'.Valid) (hd : h.Differs c none h') :
    Represents h' (m.erase c) :=
  hr.of_differs hv hd fun _ => Std.ExtTreeMap.getElem?_erase

omit [Std.LawfulEqOrd κ] in
theorem contains_eq (hr : Represents h m) (c : κ) : m.contains c = h.contains c := by
  rw [Std.ExtTreeMap.contains_eq_isSome_getElem?, hr.getElem?, hr.valid.consistent.contains_eq]

theorem mem_entries (hr : Represents h m) : e ∈ m.entries ↔ e ∈ h.entries := by
  rw [← hr.valid.consistent.key?_eq_some, ← hr.getElem?,
    ← Std.ExtTreeMap.mem_toList_iff_getElem?_eq_some, CellMap.entries, List.mem_map]
  constructor
  · rintro ⟨p, hp, rfl⟩
    exact hp
  · exact fun hp => ⟨_, hp, rfl⟩

theorem size_eq (hr : Represents h m) : m.size = h.size := by
  have hnodup : m.entries.Nodup := by
    apply List.Nodup.map
    · rintro ⟨a, x⟩ ⟨b, y⟩ hab
      cases hab
      rfl
    · refine m.distinct_keys_toList.imp fun {a b} hab heq => hab ?_
      rw [heq]
      exact Std.compare_self
  have hperm : m.entries.Perm h.entries.toList := by
    apply (List.perm_ext_iff_of_nodup hnodup hr.valid.consistent.nodup).mpr
    intro e
    rw [hr.mem_entries, Array.mem_toList_iff]
  rw [← Std.ExtTreeMap.length_toList, size, ← Array.length_toList, ← hperm.length_eq]
  simp [CellMap.entries]

variable [OrderedScalar α]

theorem first?_eq_some_iff (hr : Represents h m) :
    m.first? = some e ↔
      m[e.cell]? = some e.value ∧ ∀ c v, m[c]? = some v → Entry.before ⟨v, c⟩ e = false := by
  have hmem : ∀ d, d ∈ m.entries ↔ m[d.cell]? = some d.value := by
    intro d
    rw [hr.mem_entries, hr.getElem?, hr.valid.consistent.key?_eq_some]
  have hall : ∀ d : Entry κ α, (m.entries.all fun b => !b.before d) ↔
      ∀ c v, m[c]? = some v → Entry.before ⟨v, c⟩ d = false := by
    intro d
    simp only [List.all_eq_true, hmem, Bool.not_eq_true']
    exact ⟨fun hd c v => hd ⟨v, c⟩, fun hd b => hd b.cell b.value⟩
  unfold CellMap.first?
  constructor
  · intro hf
    have hfirst := List.find?_some hf
    exact ⟨(hmem e).mp (List.mem_of_find?_eq_some hf), (hall e).mp hfirst⟩
  · rintro ⟨he, hfirst⟩
    cases hf : m.entries.find? fun d => m.entries.all fun b => !b.before d with
    | none => exact absurd ((hall e).mpr hfirst) (List.find?_eq_none.mp hf e ((hmem e).mpr he))
    | some d =>
      -- neither of `d` and `e` comes before the other, so they are the entry of one cell
      have hd := (hmem d).mp (List.mem_of_find?_eq_some hf)
      have hall' := List.find?_some hf
      have hbefore : e.before d = false := (hall d).mp hall' _ _ he
      have hcell := Entry.cell_eq_of_not_before
        (hr.valid.numeric d (hr.mem_entries.mp ((hmem d).mpr hd)))
        (hr.valid.numeric e (hr.mem_entries.mp ((hmem e).mpr he))) hbefore (hfirst _ _ hd)
      obtain ⟨w, c⟩ := d
      obtain rfl : c = e.cell := hcell
      rw [he] at hd
      cases hd
      rfl

theorem first?_eq (hr : Represents h m) : m.first? = h.entries[0]? := by
  have hh := hr.valid
  by_cases hs : h.entries.size = 0
  · have hnil : m.entries = [] := by
      apply List.eq_nil_iff_forall_not_mem.mpr
      intro e he
      have := hr.mem_entries.mp he
      simp [Array.eq_empty_of_size_eq_zero hs] at this
    simp [CellMap.first?, hnil, hs]
  · have h0 := Array.getElem?_eq_getElem (show 0 < h.entries.size by omega)
    rw [h0, hr.first?_eq_some_iff]
    constructor
    · rw [hr.getElem?, hh.consistent.key?_eq_some]
      exact Array.getElem_mem _
    · intro c v hc
      rw [hr.getElem?, hh.consistent.key?_eq_some] at hc
      obtain ⟨k, hk⟩ := Array.mem_iff_getElem?.mp hc
      exact hh.ordered.upTo_root hh.numeric (Array.getElem?_eq_some_iff.mp hk).1 _ _ h0 hk

theorem first?_eq_none_iff (hr : Represents h m) : m.first? = none ↔ m = ∅ := by
  rw [hr.first?_eq, Array.getElem?_eq_none_iff, Std.ExtTreeMap.eq_empty_iff_size_eq_zero,
    hr.size_eq, size]
  omega

/-! ### Calls -/

theorem call_push (hr : Represents h m) (hv : Scalar.isNaN v = false) :
    (h.call (.push c v)).1 = (m.call (.push c v)).1 ∧
      Represents (h.call (.push c v)).2 (m.call (.push c v)).2 := by
  have hcontains := hr.contains_eq c
  by_cases hc : h.contains c
  · have hpush : h.push c v = .error (.duplicate c) := by simp [push, hc]
    simp only [IndexedHeap.call, CellMap.call, hpush, hcontains, hc, if_true]
    exact ⟨trivial, hr⟩
  · have hnone : h.key? c = none := by
      rw [hr.valid.consistent.contains_eq] at hc
      simpa using hc
    obtain ⟨h', hpush, hvalid, hd⟩ := hr.valid.push hnone hv
    simp only [IndexedHeap.call, CellMap.call, hpush, hcontains, if_neg hc]
    exact ⟨trivial, hr.insert hvalid hd⟩

theorem call_pop (hr : Represents h m) :
    (h.call .pop).1 = (m.call .pop).1 ∧ Represents (h.call .pop).2 (m.call .pop).2 := by
  have hfirst := hr.first?_eq
  by_cases hs : h.entries.size = 0
  · rw [Array.getElem?_eq_none (by omega)] at hfirst
    simp only [IndexedHeap.call, CellMap.call, pop_empty hs, hfirst]
    exact ⟨trivial, hr⟩
  · obtain ⟨e, h', hpop, hvalid, -, hd, -⟩ := hr.valid.pop (by omega)
    rw [getElem?_zero_of_pop hpop] at hfirst
    simp only [IndexedHeap.call, CellMap.call, hpop, hfirst]
    exact ⟨trivial, hr.erase hvalid hd⟩

theorem call_decreaseKey (hr : Represents h m) (hv : Scalar.isNaN v = false) :
    (h.call (.decreaseKey c v)).1 = (m.call (.decreaseKey c v)).1 ∧
      Represents (h.call (.decreaseKey c v)).2 (m.call (.decreaseKey c v)).2 := by
  have hkey := hr.getElem? c
  cases hc : h.key? c with
  | none =>
    have hdec := decreaseKey_missing hr.valid.consistent hc v
    rw [hc] at hkey
    simp only [IndexedHeap.call, CellMap.call, hdec, hkey]
    exact ⟨trivial, hr⟩
  | some old =>
    rw [hc] at hkey
    by_cases hlt : Scalar.lt old v
    · obtain ⟨i, hs, hi⟩ := hr.valid.consistent.exists_slot hc
      have hdec := decreaseKey_increase hs hi hlt
      simp only [IndexedHeap.call, CellMap.call, hdec, hkey, hlt, if_true]
      exact ⟨trivial, hr⟩
    · obtain ⟨h', hdec, hvalid, hd⟩ := hr.valid.decreaseKey hc hv (by simpa using hlt)
      simp only [IndexedHeap.call, CellMap.call, hdec, hkey, if_neg hlt]
      exact ⟨trivial, hr.insert hvalid hd⟩

/-- A heap and its map answer every call alike and stay together. -/
theorem call (hr : Represents h m) (k : HeapCall κ α)
    (hk : ∀ v ∈ k.value?, Scalar.isNaN v = false) :
    (h.call k).1 = (m.call k).1 ∧ Represents (h.call k).2 (m.call k).2 := by
  cases k with
  | push c v => exact hr.call_push (hk v rfl)
  | pop => exact hr.call_pop
  | top =>
    refine ⟨?_, ?_⟩
    · simp only [IndexedHeap.call, CellMap.call, hr.first?_eq, top]
      cases h.entries[0]? <;> rfl
    · simp only [IndexedHeap.call, CellMap.call]
      split <;> exact hr
  | decreaseKey c v => exact hr.call_decreaseKey (hk v rfl)
  | key c =>
    simp only [IndexedHeap.call, CellMap.call, hr.getElem?, IndexedHeap.key]
    cases h.key? c with
    | none => exact ⟨rfl, hr⟩
    | some v => exact ⟨rfl, hr⟩
  | contains c => exact ⟨by simp only [IndexedHeap.call, CellMap.call, hr.contains_eq], hr⟩
  | size => exact ⟨by simp only [IndexedHeap.call, CellMap.call, hr.size_eq], hr⟩
  | clear => exact ⟨rfl, empty⟩

theorem history (hr : Represents h m) (ks : List (HeapCall κ α))
    (hks : ∀ k ∈ ks, ∀ v ∈ k.value?, Scalar.isNaN v = false) :
    answers IndexedHeap.call h ks = answers CellMap.call m ks ∧
      Represents (after IndexedHeap.call h ks) (after CellMap.call m ks) := by
  induction ks generalizing h m with
  | nil => exact ⟨rfl, hr⟩
  | cons k ks ih =>
    obtain ⟨hk, hks⟩ := List.forall_mem_cons.mp hks
    obtain ⟨hanswer, hnext⟩ := hr.call k hk
    obtain ⟨hrest, hlast⟩ := ih hnext hks
    exact ⟨by rw [answers, answers, hanswer, hrest], hlast⟩

end Represents

/-- However a new heap is used, refused calls included, it answers as a map does that is searched
for its minimum by value and then by cell, and draining it afterwards lists the map in this
order. -/
theorem answers_eq_map [OrderedScalar α] (ks : List (HeapCall κ α))
    (hks : ∀ k ∈ ks, ∀ v ∈ k.value?, Scalar.isNaN v = false) :
    let h := after IndexedHeap.call (empty : IndexedHeap κ α) ks
    let m := after CellMap.call (∅ : CellMap κ α) ks
    answers IndexedHeap.call empty ks = answers CellMap.call ∅ ks ∧
      (m.first? = none ↔ m = ∅) ∧
      (∀ e, m.first? = some e ↔
        m[e.cell]? = some e.value ∧ ∀ c v, m[c]? = some v → Entry.before ⟨v, c⟩ e = false) ∧
      h.drain.Pairwise (fun a b => a.before b) ∧ ∀ e, e ∈ h.drain ↔ m[e.cell]? = some e.value := by
  intro h m
  obtain ⟨hanswers, hr⟩ := Represents.empty.history ks hks
  obtain ⟨hsorted, hmem⟩ := hr.valid.drain
  refine ⟨hanswers, hr.first?_eq_none_iff, fun e => hr.first?_eq_some_iff, hsorted, fun e => ?_⟩
  rw [hmem, hr.getElem?, hr.valid.consistent.key?_eq_some]

theorem answers_eq_map_sample :
    let ks : List (HeapCall Nat Float) :=
      [.push 3 2.5, .push 0 1, .push 3 0.5, .decreaseKey 3 1, .pop, .top, .decreaseKey 0 0, .pop,
        .pop]
    answers IndexedHeap.call empty ks = answers CellMap.call ∅ ks :=
  (answers_eq_map _ (by decide +kernel)).1

end IndexedHeap

end Eikonal
