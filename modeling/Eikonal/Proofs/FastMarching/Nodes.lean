import Eikonal.FastMarching.Basic
import Mathlib.Data.Nat.ModEq

/-! The nodes around a node. Neighbours are mutual, along each axis, and from any node of the array
neighbours lead to every other one. -/

namespace Eikonal.FastMarching.Field

variable {α : Type} {f : Field α} {j i k n : Nat}

def size (f : Field α) : Nat := f.rows * f.columns

theorem mem_beside : n ∈ f.beside k ↔
    (0 < k % f.columns ∧ n + 1 = k) ∨ (k % f.columns + 1 < f.columns ∧ n = k + 1) := by
  have hk : 0 < k % f.columns → 0 < k := fun h => Nat.pos_of_ne_zero fun h0 => by simp [h0] at h
  unfold beside
  rw [List.mem_append]
  constructor
  · rintro (h | h)
    · split at h
      · rename_i hm
        rw [List.mem_singleton] at h
        exact Or.inl ⟨hm, by have := hk hm; omega⟩
      · cases h
    · split at h
      · rename_i hm
        exact Or.inr ⟨hm, List.mem_singleton.mp h⟩
      · cases h
  · rintro (⟨hm, h⟩ | ⟨hm, h⟩)
    · rw [if_pos hm, List.mem_singleton]
      omega
    · rw [if_pos hm, List.mem_singleton]
      exact Or.inr h

theorem mem_aboveBelow : n ∈ f.aboveBelow k ↔
    (n + f.columns = k) ∨ (k + f.columns < f.size ∧ n = k + f.columns) := by
  unfold aboveBelow size
  rw [List.mem_append]
  constructor
  · rintro (h | h)
    · split at h
      · rw [List.mem_singleton] at h
        omega
      · cases h
    · split at h
      · rename_i hm
        exact Or.inr ⟨hm, List.mem_singleton.mp h⟩
      · cases h
  · rintro (h | ⟨hm, h⟩)
    · rw [if_pos (by omega), List.mem_singleton]
      omega
    · rw [if_pos hm, List.mem_singleton]
      exact Or.inr h

theorem mem_around : n ∈ f.around k ↔ n ∈ f.aboveBelow k ∨ n ∈ f.beside k := List.mem_append

theorem columns_pos (hk : k < f.size) : 0 < f.columns :=
  Nat.pos_of_ne_zero fun h0 => by simp [size, h0] at hk

theorem succ_mod (k c : Nat) : (k + 1) % c = (k % c + 1) % c := by
  conv_lhs => rw [← Nat.div_add_mod k c]
  rw [Nat.add_assoc, Nat.mul_add_mod]

theorem beside_symm (hk : k < f.size) (h : n ∈ f.beside k) : k ∈ f.beside n := by
  rw [mem_beside] at *
  rcases h with ⟨hm, rfl⟩ | ⟨hm, rfl⟩
  · -- the node before another one of its row is not the last of the row
    have hlt := Nat.mod_lt n (columns_pos hk)
    refine Or.inr ⟨lt_of_le_of_ne hlt fun hlast => ?_, rfl⟩
    rw [succ_mod, show n % f.columns + 1 = f.columns from hlast, Nat.mod_self] at hm
    exact absurd hm (lt_irrefl 0)
  · exact Or.inl ⟨by rw [succ_mod, Nat.mod_eq_of_lt hm]; omega, rfl⟩

theorem aboveBelow_symm (hk : k < f.size) (h : n ∈ f.aboveBelow k) : k ∈ f.aboveBelow n := by
  rw [mem_aboveBelow] at *
  rcases h with rfl | ⟨hm, rfl⟩
  · exact Or.inr ⟨hk, rfl⟩
  · exact Or.inl rfl

theorem lt_of_mem_around (hk : k < f.size) (h : n ∈ f.around k) : n < f.size := by
  rw [mem_around, mem_aboveBelow, mem_beside] at h
  rcases h with (h | ⟨hm, rfl⟩) | ⟨-, h⟩ | ⟨hm, rfl⟩
  · omega
  · exact hm
  · omega
  · -- the row of a node that is not its last one has another node
    have hrow : k / f.columns < f.rows := Nat.div_lt_of_lt_mul (by rwa [mul_comm])
    have hend := Nat.mul_le_mul_left f.columns (show k / f.columns + 1 ≤ f.rows from hrow)
    have hk' := Nat.div_add_mod k f.columns
    rw [Nat.mul_add, Nat.mul_one, mul_comm f.columns f.rows] at hend
    unfold size
    omega

theorem around_symm (hk : k < f.size) (h : n ∈ f.around k) : k ∈ f.around n := by
  rw [mem_around] at *
  exact h.imp (aboveBelow_symm hk) (beside_symm hk)

/-! ### Rows and columns -/

theorem node_lt (hj : j < f.rows) (hi : i < f.columns) : j * f.columns + i < f.size := by
  have := Nat.mul_le_mul_right f.columns (show j + 1 ≤ f.rows from hj)
  rw [Nat.add_mul, Nat.one_mul] at this
  unfold size
  omega

theorem exists_node (hk : k < f.size) :
    ∃ j < f.rows, ∃ i < f.columns, k = j * f.columns + i := by
  refine ⟨k / f.columns, Nat.div_lt_of_lt_mul (by rwa [mul_comm]), k % f.columns,
    Nat.mod_lt k (columns_pos hk), ?_⟩
  rw [mul_comm, Nat.div_add_mod]

theorem forall_node {P : Nat → Prop} :
    (∀ k < f.size, P k) ↔ ∀ j < f.rows, ∀ i < f.columns, P (j * f.columns + i) := by
  refine ⟨fun h j hj i hi => h _ (node_lt hj hi), fun h k hk => ?_⟩
  obtain ⟨j, hj, i, hi, rfl⟩ := exists_node hk
  exact h j hj i hi

theorem beside_node (hi : i < f.columns) : f.beside (j * f.columns + i) =
    (if 0 < i then [j * f.columns + (i - 1)] else []) ++
      (if i + 1 < f.columns then [j * f.columns + (i + 1)] else []) := by
  have hmod : (j * f.columns + i) % f.columns = i := Nat.mul_add_mod_of_lt hi
  unfold beside
  rw [hmod]
  congr 1
  split
  · rw [Nat.add_sub_assoc (by omega)]
  · rfl

theorem aboveBelow_node (hi : i < f.columns) : f.aboveBelow (j * f.columns + i) =
    (if 0 < j then [(j - 1) * f.columns + i] else []) ++
      (if j + 1 < f.rows then [(j + 1) * f.columns + i] else []) := by
  have habove : f.columns ≤ j * f.columns + i ↔ 0 < j := by
    constructor
    · intro h
      by_contra h0
      obtain rfl : j = 0 := by omega
      omega
    · intro h
      have := Nat.mul_le_mul_right f.columns (show 1 ≤ j from h)
      omega
  have hbelow : j * f.columns + i + f.columns < f.rows * f.columns ↔ j + 1 < f.rows := by
    constructor
    · intro h
      refine Nat.lt_of_mul_lt_mul_right (a := f.columns) ?_
      rw [Nat.add_mul, Nat.one_mul]
      omega
    · intro h
      have := f.node_lt h hi
      unfold size at this
      rw [Nat.add_mul, Nat.one_mul] at this
      omega
  unfold aboveBelow
  simp only [habove, hbelow]
  congr 1
  · split
    · rw [Nat.sub_mul, Nat.one_mul, Nat.sub_add_comm (Nat.le_mul_of_pos_left _ (by omega))]
    · rfl
  · rw [Nat.add_mul, Nat.one_mul, Nat.add_right_comm]

/-- What passes from node to neighbour holds everywhere, if it holds somewhere. -/
theorem forall_of_around {P : Nat → Prop} (hstep : ∀ k < f.size, P k → ∀ n ∈ f.around k, P n)
    (hk : k < f.size) (hP : P k) : ∀ n < f.size, P n := by
  have hmutual : ∀ k < f.size, ∀ n ∈ f.around k, (P k ↔ P n) := fun k hk n hn =>
    ⟨fun h => hstep k hk h n hn, fun h =>
      hstep n (lt_of_mem_around hk hn) h k (around_symm hk hn)⟩
  have hrow : ∀ j < f.rows, ∀ i < f.columns, (P (j * f.columns + i) ↔ P (j * f.columns)) := by
    intro j hj i
    induction i with
    | zero => exact fun _ => Iff.rfl
    | succ i ih =>
      intro hi
      rw [← ih (by omega)]
      refine (hmutual _ (node_lt hj (by omega)) _ ?_).symm
      rw [mem_around, beside_node (by omega), if_pos hi]
      exact Or.inr (List.mem_append_right _ (List.mem_singleton.mpr rfl))
  have hcolumn : 0 < f.columns → ∀ j < f.rows, (P (j * f.columns) ↔ P 0) := by
    intro hc j
    induction j with
    | zero => simp
    | succ j ih =>
      intro hj
      rw [← ih (by omega)]
      refine (hmutual _ (node_lt (i := 0) (by omega) hc) _ ?_).symm
      rw [mem_around, ← Nat.add_zero (j * f.columns), aboveBelow_node hc, if_pos hj]
      exact Or.inl (List.mem_append_right _ (List.mem_singleton.mpr rfl))
  intro n hn
  obtain ⟨j, hj, i, hi, rfl⟩ := exists_node hk
  obtain ⟨j', hj', i', hi', rfl⟩ := exists_node hn
  have hc : 0 < f.columns := by omega
  rw [hrow j' hj' i' hi', hcolumn hc j' hj', ← hcolumn hc j hj, ← hrow j hj i hi]
  exact hP

end Eikonal.FastMarching.Field
