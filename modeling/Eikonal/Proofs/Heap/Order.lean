import Eikonal.Proofs.Heap.Slots
import Eikonal.Proofs.Scalar.Order

/-! Heap order. In an ordered heap no entry comes before its parent, so the first entry comes before
all others. Sifting up restores the order where one entry may come before its parent, sifting down
where one entry may come after its children. A valid heap is consistent, ordered and free of NaNs;
`push`, `pop` and `decreaseKey` keep it valid, and `pop` takes out the entry that comes first. -/

namespace Eikonal

section Entry

variable {κ α : Type} [Ord κ] [Std.TransOrd κ] [Scalar α] [OrderedScalar α] {a b c : Entry κ α}

/-- An entry does not come before another one if its value is not less, nor its cell where the
values are equal. -/
theorem Entry.not_before_iff (ha : Scalar.isNaN a.value = false)
    (hb : Scalar.isNaN b.value = false) : b.before a = false ↔
      Scalar.le a.value b.value ∧
        (Scalar.le b.value a.value → (compare a.cell b.cell).isLE) := by
  have hcells : compare b.cell a.cell ≠ .lt ↔ (compare a.cell b.cell).isLE :=
    ⟨fun h => by
      by_contra hn
      exact h (Std.OrientedCmp.lt_of_not_isLE hn), Std.OrientedCmp.not_lt_of_isLE⟩
  unfold before
  by_cases he : Scalar.eq b.value a.value
  · obtain ⟨hba, hab⟩ := OrderedScalar.eq_iff.mp he
    rw [if_pos he, beq_eq_false_iff_ne, hcells]
    simp [hab, hba]
  · rw [if_neg he]
    rw [OrderedScalar.eq_iff, not_and] at he
    constructor
    · intro hlt
      have hab := Scalar.le_of_not_lt ha hb hlt
      exact ⟨hab, fun hba => absurd hab (he hba)⟩
    · rintro ⟨hab, -⟩
      exact Scalar.not_lt_of_le hab

theorem Entry.before_asymm (h : a.before b) : b.before a = false := by
  have hle : Scalar.le a.value b.value := by
    unfold before at h
    split at h
    · rename_i he
      exact (OrderedScalar.eq_iff.mp he).1
    · exact Scalar.le_of_lt h
  refine (not_before_iff (OrderedScalar.not_nan_left hle)
    (OrderedScalar.not_nan_right hle)).mpr ⟨hle, fun hba => ?_⟩
  unfold before at h
  rw [if_pos (OrderedScalar.eq_iff.mpr ⟨hle, hba⟩)] at h
  exact Ordering.isLE_of_eq_lt (by simpa using h)

theorem Entry.not_before_trans (ha : Scalar.isNaN a.value = false)
    (hb : Scalar.isNaN b.value = false) (hc : Scalar.isNaN c.value = false)
    (hab : b.before a = false) (hbc : c.before b = false) : c.before a = false := by
  rw [not_before_iff ha hb] at hab
  rw [not_before_iff hb hc] at hbc
  refine (not_before_iff ha hc).mpr ⟨OrderedScalar.le_trans hab.1 hbc.1, fun hca => ?_⟩
  exact Std.TransCmp.isLE_trans (hab.2 (OrderedScalar.le_trans hbc.1 hca))
    (hbc.2 (OrderedScalar.le_trans hca hab.1))

/-- Two entries neither of which comes before the other belong to the same cell. -/
theorem Entry.cell_eq_of_not_before [Std.LawfulEqOrd κ] (ha : Scalar.isNaN a.value = false)
    (hb : Scalar.isNaN b.value = false) (hab : b.before a = false) (hba : a.before b = false) :
    a.cell = b.cell := by
  rw [not_before_iff ha hb] at hab
  rw [not_before_iff hb ha] at hba
  have h1 := hab.2 hba.1
  have h2 := hba.2 hab.1
  exact Std.LawfulEqCmp.eq_of_compare (Std.OrientedCmp.isLE_antisymm h1 h2)

end Entry

namespace IndexedHeap

variable {κ α : Type} [Ord κ] [Scalar α] {h h' : IndexedHeap κ α} {i j k : Nat}

/-- No value of the heap is a NaN. -/
def Numeric (h : IndexedHeap κ α) : Prop := ∀ e ∈ h.entries, Scalar.isNaN e.value = false

/-- The entry in slot `i` does not come after the one in slot `j`, where both slots are in use. -/
def UpTo (h : IndexedHeap κ α) (i j : Nat) : Prop :=
  ∀ a b, h.entries[i]? = some a → h.entries[j]? = some b → b.before a = false

/-- No entry comes before its parent. -/
def Ordered (h : IndexedHeap κ α) : Prop := ∀ j, 0 < j → h.UpTo ((j - 1) / 2) j

/-- Only the entry in slot `i` may come before its parent. -/
structure OrderedBut (h : IndexedHeap κ α) (i : Nat) : Prop where
  other : ∀ j, 0 < j → j ≠ i → h.UpTo ((j - 1) / 2) j
  below : ∀ j, 0 < i → 0 < j → (j - 1) / 2 = i → h.UpTo ((i - 1) / 2) j

/-- Only the children of slot `i` may come before their parent. -/
structure OrderedAbove (h : IndexedHeap κ α) (i : Nat) : Prop where
  other : ∀ j, 0 < j → (j - 1) / 2 ≠ i → h.UpTo ((j - 1) / 2) j
  below : ∀ j, 0 < i → 0 < j → (j - 1) / 2 = i → h.UpTo ((i - 1) / 2) j

theorem precedes_eq_true : h.precedes i j ↔
    ∃ a b, h.entries[i]? = some a ∧ h.entries[j]? = some b ∧ a.before b := by
  unfold precedes
  split
  · rename_i a b ha hb
    simp [ha, hb]
  · rename_i hn
    constructor
    · intro hf
      cases hf
    · rintro ⟨a, b, ha, hb, -⟩
      exact absurd hb (hn a b ha)

theorem upTo_iff : h.UpTo i j ↔ h.precedes j i = false := by
  rw [Bool.eq_false_iff, ne_eq, precedes_eq_true]
  constructor
  · rintro hu ⟨b, a, hb, ha, hba⟩
    rw [hu a b ha hb] at hba
    cases hba
  · intro hn a b ha hb
    rw [Bool.eq_false_iff]
    exact fun hba => hn ⟨b, a, hb, ha, hba⟩

/-- After an exchange, slots compare as the slots did that their entries come from. -/
theorem upTo_swap {m n : Nat} (hi : i < h.entries.size) (hj : j < h.entries.size) :
    (h.swap i j).UpTo m n ↔ h.UpTo (Equiv.swap i j m) (Equiv.swap i j n) := by
  simp only [UpTo, getElem?_swap (Array.getElem?_eq_getElem hi) (Array.getElem?_eq_getElem hj)]

section Order

variable [Std.TransOrd κ] [OrderedScalar α]

theorem Numeric.trans (hn : h.Numeric) (hj : j < h.entries.size) (hij : h.UpTo i j)
    (hjk : h.UpTo j k) : h.UpTo i k := by
  intro a c ha hc
  have hb := Array.getElem?_eq_getElem hj
  exact Entry.not_before_trans (hn _ (Array.mem_of_getElem? ha)) (hn _ (Array.getElem_mem hj))
    (hn _ (Array.mem_of_getElem? hc)) (hij _ _ ha hb) (hjk _ _ hb hc)

omit [OrderedScalar α] [Std.TransOrd κ] in
theorem Numeric.swap (hn : h.Numeric) (i j : Nat) : (h.swap i j).Numeric :=
  fun e he => hn e ((mem_swap h i j e).mp he)

theorem Numeric.upTo_self (hn : h.Numeric) (i : Nat) : h.UpTo i i := by
  intro a b ha hb
  rw [ha] at hb
  cases hb
  have hself := hn a (Array.mem_of_getElem? ha)
  exact (Entry.not_before_iff hself hself).mpr
    ⟨Scalar.le_refl hself, fun _ => Std.ReflCmp.isLE_rfl⟩

theorem upTo_of_precedes (hp : h.precedes i j) : h.UpTo i j := by
  obtain ⟨a, b, ha, hb, hab⟩ := precedes_eq_true.mp hp
  intro a' b' ha' hb'
  rw [ha] at ha'
  rw [hb] at hb'
  cases ha'
  cases hb'
  exact Entry.before_asymm hab

omit [OrderedScalar α] [Std.TransOrd κ] in
theorem lt_size_of_precedes (hp : h.precedes i j) : i < h.entries.size ∧ j < h.entries.size := by
  obtain ⟨a, b, ha, hb, -⟩ := precedes_eq_true.mp hp
  exact ⟨(Array.getElem?_eq_some_iff.mp ha).1, (Array.getElem?_eq_some_iff.mp hb).1⟩

/-- The first entry of an ordered heap does not come after any other. -/
theorem Ordered.upTo_root (ho : h.Ordered) (hn : h.Numeric) (hk : k < h.entries.size) :
    h.UpTo 0 k := by
  induction k using Nat.strongRecOn with
  | ind k ih =>
    by_cases hk0 : k = 0
    · rw [hk0]
      exact hn.upTo_self 0
    · exact hn.trans (by omega) (ih ((k - 1) / 2) (by omega) (by omega)) (ho k (by omega))

/-! ### Sifting up -/

/-- An exchange with the parent moves the place that is out of order up to the parent. -/
theorem OrderedBut.swap (ho : h.OrderedBut i) (hn : h.Numeric) (hi : 0 < i)
    (hp : h.precedes i ((i - 1) / 2)) : (h.swap i ((i - 1) / 2)).OrderedBut ((i - 1) / 2) := by
  obtain ⟨hil, hpl⟩ := lt_size_of_precedes hp
  have hup : h.UpTo i ((i - 1) / 2) := upTo_of_precedes hp
  constructor
  · intro j hj hji
    rw [upTo_swap hil hpl]
    simp only [Equiv.swap_apply_def]
    by_cases hj1 : j = i
    · subst hj1
      rw [if_neg (by omega), if_pos rfl, if_pos rfl]
      exact hup
    · rw [if_neg hj1, if_neg hji]
      by_cases hj2 : (j - 1) / 2 = i
      · rw [if_pos hj2]
        exact ho.below j hi hj hj2
      · rw [if_neg hj2]
        by_cases hj3 : (j - 1) / 2 = (i - 1) / 2
        · rw [if_pos hj3]
          have := ho.other j hj hj1
          rw [hj3] at this
          exact hn.trans hpl hup this
        · rw [if_neg hj3]
          exact ho.other j hj hj1
  · intro j hp0 hj hjp
    have hpp := ho.other ((i - 1) / 2) hp0 (by omega)
    rw [upTo_swap hil hpl]
    simp only [Equiv.swap_apply_def]
    rw [if_neg (by omega), if_neg (by omega)]
    by_cases hj1 : j = i
    · rw [if_pos hj1]
      exact hpp
    · rw [if_neg hj1, if_neg (by omega)]
      have := ho.other j hj hj1
      rw [hjp] at this
      exact hn.trans hpl hpp this

theorem OrderedBut.siftUp (ho : h.OrderedBut i) (hn : h.Numeric) : (h.siftUp i).Ordered := by
  induction h, i using IndexedHeap.siftUp.induct with
  | case1 h i hi hp ih =>
    rw [IndexedHeap.siftUp, if_pos hi, if_pos hp]
    exact ih (ho.swap hn hi hp) (hn.swap _ _)
  | case2 h i hi hp =>
    rw [IndexedHeap.siftUp, if_pos hi, if_neg hp]
    intro j hj
    by_cases hji : j = i
    · subst hji
      exact upTo_iff.mpr (by simpa using hp)
    · exact ho.other j hj hji
  | case3 h i hi =>
    rw [IndexedHeap.siftUp, if_neg hi]
    exact fun j hj => ho.other j hj (by omega)

/-! ### Sifting down -/

omit [OrderedScalar α] [Std.TransOrd κ] in
theorem firstChild_eq_or (h : IndexedHeap κ α) (i : Nat) :
    h.firstChild i = 2 * i + 1 ∨ h.firstChild i = 2 * i + 2 := by
  unfold firstChild
  split
  · exact Or.inr rfl
  · exact Or.inl rfl

/-- The first child does not come after the other one. -/
theorem firstChild_upTo (hn : h.Numeric) (hj : 0 < j) (hji : (j - 1) / 2 = i) :
    h.UpTo (h.firstChild i) j := by
  have hcase : j = 2 * i + 1 ∨ j = 2 * i + 2 := by omega
  unfold firstChild
  split
  · rename_i hc
    rw [Bool.and_eq_true] at hc
    rcases hcase with rfl | rfl
    · exact upTo_of_precedes hc.2
    · exact hn.upTo_self _
  · rename_i hc
    rcases hcase with rfl | rfl
    · exact hn.upTo_self _
    · rw [upTo_iff, Bool.eq_false_iff]
      intro hp
      exact hc (by simp [hp, (lt_size_of_precedes hp).1])

theorem OrderedAbove.swap (ho : h.OrderedAbove i) (hn : h.Numeric)
    (hp : h.precedes (h.firstChild i) i) :
    (h.swap i (h.firstChild i)).OrderedAbove (h.firstChild i) := by
  obtain ⟨hcl, hil⟩ := lt_size_of_precedes hp
  have hup : h.UpTo (h.firstChild i) i := upTo_of_precedes hp
  have hchild := h.firstChild_eq_or i
  have hfirst : ∀ j, 0 < j → (j - 1) / 2 = i → h.UpTo (h.firstChild i) j :=
    fun j hj hji => firstChild_upTo hn hj hji
  generalize h.firstChild i = c at *
  constructor
  · intro j hj hjc
    rw [upTo_swap hil hcl]
    simp only [Equiv.swap_apply_def]
    by_cases hj1 : j = c
    · subst hj1
      rw [if_pos (by omega), if_neg (by omega), if_pos rfl]
      exact hup
    · rw [if_neg hj1, if_neg hjc]
      by_cases hj2 : (j - 1) / 2 = i
      · rw [if_pos hj2, if_neg (by omega)]
        exact hfirst j hj hj2
      · rw [if_neg hj2]
        by_cases hj3 : j = i
        · subst hj3
          rw [if_pos rfl]
          exact ho.below c hj (by omega) (by omega)
        · rw [if_neg hj3]
          exact ho.other j hj hj2
  · intro j hc0 hj hjc
    rw [upTo_swap hil hcl]
    simp only [Equiv.swap_apply_def]
    rw [if_pos (by omega), if_neg (by omega), if_neg (by omega)]
    have := ho.other j hj (by omega)
    rw [hjc] at this
    exact this

theorem OrderedAbove.siftDown (ho : h.OrderedAbove i) (hn : h.Numeric) :
    (h.siftDown i).Ordered := by
  induction h, i using IndexedHeap.siftDown.induct with
  | case1 h i hi hp ih =>
    rw [IndexedHeap.siftDown, if_pos hi, if_pos hp]
    exact ih (ho.swap hn hp) (hn.swap _ _)
  | case2 h i hi hp =>
    rw [IndexedHeap.siftDown, if_pos hi, if_neg hp]
    have hstop : h.UpTo i (h.firstChild i) := upTo_iff.mpr (by simpa using hp)
    intro j hj
    by_cases hji : (j - 1) / 2 = i
    · rw [hji]
      by_cases hjl : j < h.entries.size
      · have hcl : h.firstChild i < h.entries.size := by
          unfold firstChild
          split
          · rename_i hc
            simp only [Bool.and_eq_true, decide_eq_true_eq] at hc
            exact hc.1
          · exact hi
        exact hn.trans hcl hstop (firstChild_upTo hn hj hji)
      · intro a b ha hb
        exact absurd (Array.getElem?_eq_some_iff.mp hb).1 hjl
    · exact ho.other j hj hji
  | case3 h i hi =>
    rw [IndexedHeap.siftDown, if_neg hi]
    intro j hj
    by_cases hji : (j - 1) / 2 = i
    · intro a b ha hb
      have := (Array.getElem?_eq_some_iff.mp hb).1
      omega
    · exact ho.other j hj hji

/-! ### Operations on a valid heap -/

/-- A heap as the operations leave it: consistent, in order and without NaNs. -/
structure Valid (h : IndexedHeap κ α) : Prop where
  consistent : h.Consistent
  numeric : h.Numeric
  ordered : h.Ordered

omit [OrderedScalar α] in
theorem valid_empty : (empty : IndexedHeap κ α).Valid := by
  refine ⟨consistent_empty, fun e he => ?_, fun j _ a b ha _ => ?_⟩
  · simp [empty] at he
  · simp [empty] at ha

variable [Std.LawfulEqOrd κ] {c : κ} {v : α} {o : Option α}

omit [OrderedScalar α] [Std.TransOrd κ] [Std.LawfulEqOrd κ] in
theorem Differs.numeric (hd : h.Differs c o h') (hn : h.Numeric)
    (hv : ∀ v, o = some v → Scalar.isNaN v = false) : h'.Numeric := by
  rintro ⟨w, d⟩ he
  by_cases hdc : d = c
  · subst hdc
    exact hv w ((hd.mem_self w).mp he)
  · exact hn _ ((hd.mem_ne _ hdc).mp he)

theorem Valid.push (hh : h.Valid) (hn : h.key? c = none) (hv : Scalar.isNaN v = false) :
    ∃ h', h.push c v = .ok h' ∧ h'.Valid ∧ h.Differs c (some v) h' := by
  have hd := push_differs hh.consistent hn v
  have hnum : (h.append c v).Numeric := by
    intro e he
    rcases Array.mem_push.mp he with he | rfl
    · exact hh.numeric e he
    · exact hv
  have hbut : (h.append c v).OrderedBut h.entries.size := by
    constructor
    · intro j _ hjn a b ha hb
      have hjl := (Array.getElem?_eq_some_iff.mp hb).1
      simp only [append, Array.size_push] at hjl
      simp only [append, Array.getElem?_push] at ha hb
      rw [if_neg (by omega)] at ha hb
      exact hh.ordered j (by omega) a b ha hb
    · intro j _ _ hjn a b _ hb
      have hjl := (Array.getElem?_eq_some_iff.mp hb).1
      simp only [append, Array.size_push] at hjl
      omega
  exact ⟨_, push_eq hh.consistent hn v,
    ⟨hd.consistent, hd.numeric hh.numeric (by rintro w ⟨⟩; exact hv), hbut.siftUp hnum⟩, hd⟩

theorem Valid.decreaseKey {old : α} (hh : h.Valid) (hk : h.key? c = some old)
    (hv : Scalar.isNaN v = false) (hlt : Scalar.lt old v = false) :
    ∃ h', h.decreaseKey c v = .ok h' ∧ h'.Valid ∧ h.Differs c (some v) h' := by
  obtain ⟨i, hs, hi⟩ := hh.consistent.exists_slot hk
  have hil := (Array.getElem?_eq_some_iff.mp hi).1
  have hd := replace_differs hh.consistent hs v
  have hnum := hd.numeric hh.numeric (by rintro w ⟨⟩; exact hv)
  have hold := hh.numeric _ (Array.mem_of_getElem? hi)
  have hself : (h.replace i c v).entries[i]? = some ⟨v, c⟩ := by simp [replace, hil]
  have hother : ∀ k, k ≠ i → (h.replace i c v).entries[k]? = h.entries[k]? := by
    intro k hk
    simp [replace, Ne.symm hk]
  have hdown : Entry.before ⟨old, c⟩ (⟨v, c⟩ : Entry κ α) = false :=
    (Entry.not_before_iff hv hold).mpr
      ⟨Scalar.le_of_not_lt hv hold hlt, fun _ => Std.ReflCmp.isLE_rfl⟩
  have hbut : (h.replace i c v).OrderedBut i := by
    constructor
    · intro j hj hji a b ha hb
      rw [hother j hji] at hb
      have hb' := hh.numeric b (Array.mem_of_getElem? hb)
      by_cases hjp : (j - 1) / 2 = i
      · rw [hjp, hself] at ha
        cases ha
        exact Entry.not_before_trans hv hold hb' hdown
          (hh.ordered j hj _ b (by rw [hjp]; exact hi) hb)
      · rw [hother _ hjp] at ha
        exact hh.ordered j hj a b ha hb
    · intro j hi0 hj hji a b ha hb
      rw [hother j (by omega)] at hb
      rw [hother _ (by omega)] at ha
      exact hh.numeric.trans hil (hh.ordered i hi0) (hji ▸ hh.ordered j hj) a b ha hb
  exact ⟨_, decreaseKey_eq hs hi hlt,
    ⟨(hd.siftUp i).consistent, (hd.siftUp i).numeric hh.numeric (by rintro w ⟨⟩; exact hv),
      hbut.siftUp hnum⟩, hd.siftUp i⟩

/-- The entry that `pop` takes out of a heap in use is in the heap, and no other comes before it. -/
theorem Valid.pop (hh : h.Valid) (hs : 0 < h.entries.size) :
    ∃ e h', h.pop = .ok (e, h') ∧ h'.Valid ∧ h.key? e.cell = some e.value ∧
      h.Differs e.cell none h' ∧
      ∀ d w, h.key? d = some w → Entry.before ⟨w, d⟩ e = false := by
  have h0 := Array.getElem?_eq_getElem hs
  have hkey : h.key? h.entries[0].cell = some h.entries[0].value :=
    hh.consistent.key?_eq_some.mpr (Array.getElem_mem hs)
  have hfirst : ∀ d w, h.key? d = some w → Entry.before ⟨w, d⟩ h.entries[0] = false := by
    intro d w hw
    obtain ⟨k, hk⟩ := Array.mem_iff_getElem?.mp (hh.consistent.key?_eq_some.mp hw)
    exact hh.ordered.upTo_root hh.numeric (Array.getElem?_eq_some_iff.mp hk).1 _ _ h0 hk
  by_cases hone : h.entries.size = 1
  · have hd := clearFirst_differs hh.consistent h0 hone
    refine ⟨_, _, pop_single h0 hone, ⟨hd.consistent, hd.numeric hh.numeric (by simp), ?_⟩, hkey,
      hd, hfirst⟩
    intro j hj a b _ hb
    have hjl := (Array.getElem?_eq_some_iff.mp hb).1
    simp [clearFirst, hone] at hjl
  · have hmany : 1 < h.entries.size := by omega
    have hl := Array.getElem?_eq_getElem (show h.entries.size - 1 < h.entries.size by omega)
    have hd := behead_differs hh.consistent h0 hl hmany
    have hnum := hd.numeric hh.numeric (by simp)
    have habove : (h.behead h.entries[0] h.entries[h.entries.size - 1]).OrderedAbove 0 := by
      constructor
      · intro j hj hjp a b ha hb
        rw [getElem?_behead hmany] at ha hb
        rw [if_neg (by omega)] at ha hb
        split at hb
        · rw [if_pos (by omega)] at ha
          exact hh.ordered j hj a b ha hb
        · cases hb
      · intro j h00
        omega
    exact ⟨_, _, pop_many h0 hl hmany,
      ⟨(hd.siftDown 0).consistent, (hd.siftDown 0).numeric hh.numeric (by simp),
        habove.siftDown hnum⟩, hkey, hd.siftDown 0, hfirst⟩

end Order

end IndexedHeap

end Eikonal
