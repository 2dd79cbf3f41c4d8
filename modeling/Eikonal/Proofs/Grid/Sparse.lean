import Eikonal.Grid.Sparse
import Mathlib.Algebra.GroupWithZero.Nat
import Mathlib.Tactic.Push

/-! The number in each place of a sparse table. A product holds in row `i` and column `k` the sum of
the products of an entry in row `i` with the number that the other table has in the row which its
column names, and in column `k`. -/

namespace Eikonal.SparseTable

variable {ρ κ τ : Type}

section Numbers

variable [DecidableEq ρ] [DecidableEq κ]

/-- The number in a place: the entries there add up. -/
def number (t : SparseTable ρ κ) (i : ρ) (j : κ) : Nat :=
  ((t.filter fun e => e.row = i ∧ e.column = j).map (·.number)).sum

theorem number_cons (e : SparseEntry ρ κ) (t : SparseTable ρ κ) (i : ρ) (j : κ) :
    number (e :: t) i j = (if e.row = i ∧ e.column = j then e.number else 0) + number t i j := by
  by_cases h : e.row = i ∧ e.column = j
  · simp [number, h]
  · simp [number, h]

theorem number_append (s t : SparseTable ρ κ) (i : ρ) (j : κ) :
    number (s ++ t) i j = number s i j + number t i j := by
  simp [number]

/-- A place holds zero unless an entry other than zero stands there. -/
theorem number_ne_zero_iff {t : SparseTable ρ κ} {i : ρ} {j : κ} :
    number t i j ≠ 0 ↔ ∃ e ∈ t, e.row = i ∧ e.column = j ∧ e.number ≠ 0 := by
  rw [number, ne_eq, List.sum_eq_zero_iff_forall_eq_nat, List.forall_mem_map]
  simp

theorem number_transpose (t : SparseTable ρ κ) (i : ρ) (j : κ) :
    number (transpose t) j i = number t i j := by
  induction t with
  | nil => rfl
  | cons e t ih =>
    rw [transpose] at ih
    rw [transpose, List.map_cons, number_cons, number_cons, ih]
    simp only [and_comm]

theorem number_filter_row (t : SparseTable ρ κ) (i : ρ) (j : κ) :
    number (t.filter fun e => e.row = i) i j = number t i j := by
  have hfilter : (t.filter fun e => e.row = i).filter (fun e => e.row = i ∧ e.column = j) =
      t.filter fun e => e.row = i ∧ e.column = j := by
    rw [List.filter_filter]
    refine List.filter_congr fun e _ => ?_
    by_cases hi : e.row = i <;> simp [hi]
  rw [number, number, hfilter]

/-- One entry times the entries of a row. -/
theorem number_scaled [DecidableEq τ] (e : SparseEntry ρ κ) (t : SparseTable κ τ) (i : ρ) (k : τ) :
    number ((t.filter fun f => f.row = e.column).map
        fun f => (⟨e.row, f.column, e.number * f.number⟩ : SparseEntry ρ τ)) i k =
      if e.row = i then e.number * number t e.column k else 0 := by
  induction t with
  | nil => simp [number]
  | cons f t ih =>
    by_cases hf : f.row = e.column
    · rw [List.filter_cons_of_pos (by simpa using hf), List.map_cons, number_cons, ih, number_cons]
      by_cases hi : e.row = i
      · by_cases hk : f.column = k
        · simp [hf, hi, hk, Nat.mul_add]
        · simp [hi, hk]
      · simp [hi]
    · have hrow : ¬(f.row = e.column ∧ f.column = k) := fun h => hf h.1
      rw [List.filter_cons_of_neg (by simpa using hf), ih, number_cons, if_neg hrow, Nat.zero_add]

end Numbers

/-! ### Rows and columns -/

section Columns

variable [Ord κ] [Std.TransOrd κ] [Std.LawfulEqOrd κ] [DecidableEq κ]

/-- The entries of a row are those of the table in this row. -/
theorem getD_rows (t : SparseTable κ τ) (j : κ) :
    (rows t).getD j [] = t.filter fun e => e.row = j := by
  induction t with
  | nil => exact Std.TreeMap.getD_emptyc
  | cons e t ih =>
    have hcons : rows (e :: t) = (rows t).insert e.row (e :: (rows t).getD e.row []) := rfl
    rw [hcons, Std.TreeMap.getD_insert]
    by_cases h : e.row = j
    · subst h
      rw [if_pos Std.ReflCmp.compare_self, ih, List.filter_cons_of_pos (by simp)]
    · rw [if_neg (fun hcmp => h (Std.LawfulEqCmp.eq_of_compare hcmp)), ih,
        List.filter_cons_of_neg (by simpa using h)]

/-- The sum of a column is what the rows of the table hold there. -/
theorem getD_columnSums [DecidableEq ρ] {t : SparseTable ρ κ} {i : ρ} (h : ∀ e ∈ t, e.row = i)
    (j : κ) : (columnSums t).getD j 0 = number t i j := by
  induction t with
  | nil => exact Std.TreeMap.getD_emptyc
  | cons e t ih =>
    rw [List.forall_mem_cons] at h
    have hcons : columnSums (e :: t) =
      (columnSums t).insert e.column (e.number + (columnSums t).getD e.column 0) := rfl
    rw [hcons, Std.TreeMap.getD_insert, number_cons, ← ih h.2]
    by_cases hj : e.column = j
    · subst hj
      rw [if_pos Std.ReflCmp.compare_self, if_pos ⟨h.1, rfl⟩]
    · rw [if_neg (fun hcmp => hj (Std.LawfulEqCmp.eq_of_compare hcmp)),
        if_neg (fun hij => hj hij.2), Nat.zero_add]

omit [DecidableEq κ] in
/-- The columns that are left without the zeros, ascending. -/
theorem mem_keys_filter_ne_zero {m : Std.TreeMap κ Nat} {j : κ} :
    j ∈ (m.filter fun _ n => n != 0).keys ↔ m.getD j 0 ≠ 0 := by
  rw [Std.TreeMap.mem_keys, Std.TreeMap.mem_iff_isSome_getElem?, Std.TreeMap.getElem?_filter',
    Std.TreeMap.getD_eq_getD_getElem?]
  cases m[j]? with
  | none => simp
  | some n => by_cases h : n = 0 <;> simp [h]

/-- The number in a place of a product. -/
theorem number_mul [DecidableEq ρ] [DecidableEq τ] (s : SparseTable ρ κ) (t : SparseTable κ τ)
    (i : ρ) (k : τ) :
    number (mul s t) i k =
      ((s.filter fun e => e.row = i).map fun e => e.number * number t e.column k).sum := by
  induction s with
  | nil => rfl
  | cons e s ih =>
    have hcons : mul (e :: s) t = ((rows t).getD e.column []).map
        (fun f => ⟨e.row, f.column, e.number * f.number⟩) ++ mul s t := rfl
    rw [hcons, number_append, getD_rows, number_scaled, ih]
    by_cases hi : e.row = i
    · rw [if_pos hi, List.filter_cons_of_pos (by simpa using hi), List.map_cons, List.sum_cons]
    · rw [if_neg hi, List.filter_cons_of_neg (by simpa using hi), Nat.zero_add]

/-- A place of a product holds zero unless the row and the column meet. -/
theorem number_mul_ne_zero_iff [DecidableEq ρ] [DecidableEq τ] {s : SparseTable ρ κ}
    {t : SparseTable κ τ} {i : ρ} {k : τ} :
    number (mul s t) i k ≠ 0 ↔ ∃ j, number s i j ≠ 0 ∧ number t j k ≠ 0 := by
  rw [number_mul, ne_eq, List.sum_eq_zero_iff_forall_eq_nat, List.forall_mem_map]
  simp only [List.mem_filter, decide_eq_true_eq, number_ne_zero_iff (t := s)]
  constructor
  · intro h
    push Not at h
    obtain ⟨e, ⟨he, hi⟩, hne⟩ := h
    obtain ⟨hnumber, hnext⟩ := Nat.mul_ne_zero_iff.mp hne
    exact ⟨e.column, ⟨e, he, hi, rfl, hnumber⟩, hnext⟩
  · rintro ⟨_, ⟨e, he, hi, rfl, hnumber⟩, hnext⟩ h
    exact Nat.mul_ne_zero_iff.mpr ⟨hnumber, hnext⟩ (h e ⟨he, hi⟩)

end Columns

end Eikonal.SparseTable
