import Eikonal.NdArray
import Mathlib.Data.Option.NAry

/-! Arrays of rows, lists as arrays of one axis, and sequences that are combined item by item. -/

namespace Eikonal.NdArray

variable {α β γ : Type}

/-! ### Rows -/

/-- The rows of a list of lists of the same length stand one after the other. -/
theorem take_drop_flatMap {width : Nat} {f : β → List α} (hf : ∀ x, (f x).length = width)
    (l : List β) (i : Nat) :
    ((l.flatMap f).drop (i * width)).take width = (l[i]?.map f).getD [] := by
  induction l generalizing i with
  | nil => simp
  | cons x l ih =>
    rw [List.flatMap_cons]
    cases i with
    | zero => simp [← hf x]
    | succ i =>
      rw [Nat.succ_mul, Nat.add_comm, ← List.drop_drop, ← hf x, List.drop_left, hf x]
      exact ih i

theorem groups_flatMap {width : Nat} {f : β → List α} (hwidth : 0 < width)
    (hf : ∀ x, (f x).length = width) (shape : List Nat) (l : Array β) :
    groups width ⟨shape, l.flatMap fun x => (f x).toArray⟩ = l.map fun x => (f x).toArray := by
  have hitems : (l.flatMap fun x => (f x).toArray).toList = l.toList.flatMap f := by
    rw [Array.toList_flatMap]
  have hsize : (l.flatMap fun x => (f x).toArray).size = l.size * width := by
    rw [← Array.length_toList, hitems, List.length_flatMap]
    simp [hf, List.map_const']
  apply Array.ext
  · simp [groups, hsize, Nat.mul_div_cancel _ hwidth]
  · intro i h1 h2
    rw [Array.size_map] at h2
    simp only [groups, List.getElem_toArray, List.getElem_map, List.getElem_range,
      Array.getElem_map]
    apply Array.ext'
    rw [Array.toList_extract, hitems, List.extract_eq_take_drop, Nat.add_sub_cancel_left,
      take_drop_flatMap hf]
    simp [h2]

/-! ### Lists -/

theorem shape?_ofList (l : List α) : (Nested.ofList l).shape? = some [l.length] := by
  have hcommon : ∀ l : List α, Nested.commonShape? (l.map .leaf) = some [] := by
    intro l
    induction l with
    | nil => rfl
    | cons a l ih =>
      cases l with
      | nil => rfl
      | cons b l =>
        rw [List.map_cons, List.map_cons, Nested.commonShape?]
        · rw [← List.map_cons, ih]
          rfl
        · simp
  rw [Nested.ofList, Nested.shape?, hcommon, Option.map_some, List.length_map]

theorem leaves_ofList (l : List α) : (Nested.ofList l).leaves = l := by
  have hall : ∀ l : List α, Nested.leavesOfAll (l.map .leaf) = l := by
    intro l
    induction l with
    | nil => rfl
    | cons a l ih =>
      rw [List.map_cons, Nested.leavesOfAll, ih]
      rfl
  rw [Nested.ofList, Nested.leaves, hall]

theorem toArray_ofList (l : List α) : (Nested.ofList l).toArray = .ok (ofList l) := by
  unfold Nested.toArray
  rw [shape?_ofList, leaves_ofList]
  rfl

/-- A list has one item for each of as many places. -/
theorem spread_ofList (l : List α) :
    (ofList l).dropOuterAxes.spread l.length = .ok l.toArray := by
  have hdrop : (ofList l).dropOuterAxes = ofList l := by
    simp [dropOuterAxes, ofList]
  rw [hdrop]
  rcases l with _ | ⟨a, _ | ⟨b, l⟩⟩
  · rfl
  · rfl
  · simp [spread, ofList]

/-! ### Sequences that are combined -/

section Spread

variable {f : α → β → γ} {a : Array α} {b : Array β} {i : Nat}

/-- The item at place `i`. A single item stands at every place. -/
def item? (a : Array α) (i : Nat) : Option α := a[if a.size = 1 then 0 else i]?

theorem item?_singleton (x : α) (i : Nat) : item? #[x] i = some x := rfl

theorem item?_map (g : α → β) (a : Array α) (i : Nat) : item? (a.map g) i = (item? a i).map g := by
  unfold item?
  rw [Array.getElem?_map, Array.size_map]

theorem item?_of_getElem? {x : α} (h : a[i]? = some x) : item? a i = some x := by
  unfold item?
  split
  · obtain ⟨hi, -⟩ := Array.getElem?_eq_some_iff.mp h
    obtain rfl : i = 0 := by omega
    exact h
  · exact h

theorem mem_of_item? {x : α} (h : item? a i = some x) : x ∈ a := Array.mem_of_getElem? h

/-- A single item on the left meets every item on the right. -/
theorem zipSpread_singleton_left (f : α → β → γ) (x : α) (b : Array β) :
    zipSpread f #[x] b = .ok (b.map (f x)) := by
  unfold zipSpread
  split
  · rename_i hsize
    obtain ⟨y, rfl⟩ := Array.size_eq_one_iff.mp hsize.symm
    simp
  · rw [if_pos Array.size_singleton]
    exact congrArg Except.ok (Array.ext' (by simp))

theorem zipSpread_singleton_right (f : α → β → γ) (a : Array α) (y : β) :
    zipSpread f a #[y] = .ok (a.map (f · y)) := by
  by_cases ha : a.size = 1
  · obtain ⟨x, rfl⟩ := Array.size_eq_one_iff.mp ha
    simp [zipSpread_singleton_left]
  · unfold zipSpread
    rw [Array.size_singleton, if_neg ha, if_neg ha, if_pos rfl]
    exact congrArg Except.ok (Array.ext' (by simp))

/-- Sequences are combined place by place. -/
theorem item?_zipSpread {out : Array γ} (h : zipSpread f a b = .ok out) (i : Nat) :
    item? out i = Option.map₂ f (item? a i) (item? b i) := by
  by_cases ha : a.size = 1
  · obtain ⟨x, rfl⟩ := Array.size_eq_one_iff.mp ha
    rw [zipSpread_singleton_left] at h
    cases h
    rw [item?_map, item?_singleton, Option.map₂_coe_left]
  by_cases hb : b.size = 1
  · obtain ⟨y, rfl⟩ := Array.size_eq_one_iff.mp hb
    rw [zipSpread_singleton_right] at h
    cases h
    rw [item?_map, item?_singleton, Option.map₂_coe_right]
  -- without a single item there are as many on either side
  unfold zipSpread at h
  rw [if_neg ha, if_neg hb] at h
  split at h
  · rename_i hsize
    cases h
    unfold item?
    rw [Array.size_zipWith, ← hsize, Nat.min_self, if_neg ha, Array.getElem?_zipWith]
    cases a[i]? <;> cases b[i]? <;> rfl
  · cases h

/-- A sequence of one item, or of one for each item on the right, can be combined with those. -/
theorem exists_zipSpread (f : α → β → γ) (h : a.size = 1 ∨ a.size = b.size) :
    ∃ out, zipSpread f a b = .ok out ∧ out.size = b.size := by
  rcases h with h | h
  · obtain ⟨x, rfl⟩ := Array.size_eq_one_iff.mp h
    exact ⟨_, zipSpread_singleton_left f x b, Array.size_map⟩
  · refine ⟨_, if_pos h, ?_⟩
    rw [Array.size_zipWith, h, Nat.min_self]

end Spread

end Eikonal.NdArray
