import Eikonal.Scalar.Basic

/-! The order of scalars. `OrderedScalar` says that comparisons order everything but NaNs and that
infinity is the greatest; `LawfulScalar` adds that no sum with a number that is not negative falls
below its first part. All scalars that are compared here may be NaNs, which every comparison
refuses, so the least of some candidates passes over them. -/

namespace Eikonal

/-- Numbers that are totally ordered apart from NaNs, with infinity as the greatest. -/
class OrderedScalar (α : Type) [Scalar α] : Prop where
  le_trans {a b c : α} : Scalar.le a b → Scalar.le b c → Scalar.le a c
  le_total {a b : α} : Scalar.isNaN a = false → Scalar.isNaN b = false →
    Scalar.le a b ∨ Scalar.le b a
  lt_iff {a b : α} : Scalar.lt a b ↔ Scalar.le a b ∧ ¬Scalar.le b a
  eq_iff {a b : α} : Scalar.eq a b ↔ Scalar.le a b ∧ Scalar.le b a
  not_nan_left {a b : α} : Scalar.le a b → Scalar.isNaN a = false
  not_nan_right {a b : α} : Scalar.le a b → Scalar.isNaN b = false
  le_inf {a : α} : Scalar.isNaN a = false → Scalar.le a Scalar.inf
  zero_lt_inf : Scalar.lt (Scalar.zero : α) Scalar.inf
  lt_inf_of_isFinite {a : α} : Scalar.isFinite a → Scalar.lt a Scalar.inf
  isFinite_of_lt_inf {a : α} : Scalar.le Scalar.zero a → Scalar.lt a Scalar.inf →
    Scalar.isFinite a

/-- Ordered numbers with sums and roots that keep the order; neither makes a number of a NaN. -/
class LawfulScalar (α : Type) [Scalar α] : Prop extends OrderedScalar α where
  le_add {u x : α} : Scalar.le Scalar.zero u → Scalar.le Scalar.zero x → Scalar.le u (u + x)
  not_nan_of_add {u x : α} : Scalar.isNaN (u + x) = false → Scalar.isNaN x = false
  sqrt_nonneg {x : α} : Scalar.le Scalar.zero x → Scalar.le Scalar.zero (Scalar.sqrt x)
  not_nan_of_sqrt {x : α} : Scalar.isNaN (Scalar.sqrt x) = false → Scalar.isNaN x = false

namespace Scalar

open OrderedScalar

variable {α : Type} [Scalar α] [OrderedScalar α] {a b c : α}

theorem le_refl (ha : isNaN a = false) : le a a := by
  rcases le_total ha ha with h | h <;> exact h

theorem le_of_lt (h : lt a b) : le a b := (lt_iff.mp h).1

theorem lt_of_le_of_lt (h1 : le a b) (h2 : lt b c) : lt a c := by
  obtain ⟨hbc, hcb⟩ := lt_iff.mp h2
  exact lt_iff.mpr ⟨le_trans h1 hbc, fun hca => hcb (le_trans hca h1)⟩

theorem lt_of_lt_of_le (h1 : lt a b) (h2 : le b c) : lt a c := by
  obtain ⟨hab, hba⟩ := lt_iff.mp h1
  exact lt_iff.mpr ⟨le_trans hab h2, fun hca => hba (le_trans h2 hca)⟩

theorem lt_irrefl (a : α) : lt a a = false := by
  rw [Bool.eq_false_iff]
  intro h
  exact (lt_iff.mp h).2 (lt_iff.mp h).1

theorem not_lt_of_le (h : le a b) : lt b a = false := by
  rw [Bool.eq_false_iff]
  intro hlt
  exact (lt_iff.mp hlt).2 h

theorem le_of_not_lt (ha : isNaN a = false) (hb : isNaN b = false) (h : lt b a = false) :
    le a b := by
  rcases le_total ha hb with hab | hba
  · exact hab
  · by_cases hab : le a b
    · exact hab
    · exact absurd (lt_iff.mpr ⟨hba, hab⟩) (by simp [h])

theorem eq_false_of_lt (h : lt a b) : eq a b = false := by
  rw [Bool.eq_false_iff]
  intro he
  exact (lt_iff.mp h).2 (eq_iff.mp he).2

@[simp] theorem isNaN_zero : isNaN (zero : α) = false := not_nan_left (le_of_lt zero_lt_inf)

@[simp] theorem isNaN_inf : isNaN (inf : α) = false := not_nan_right (le_of_lt zero_lt_inf)

theorem isNaN_of_lt_inf (h : lt a inf) : isNaN a = false := not_nan_left (le_of_lt h)

/-- A number equals infinity if it is not strictly below it. -/
theorem eq_inf_iff (ha : isNaN a = false) : eq a inf ↔ lt a inf = false := by
  constructor
  · intro h
    exact not_lt_of_le (eq_iff.mp h).2
  · intro h
    exact eq_iff.mpr ⟨le_inf ha, le_of_not_lt isNaN_inf ha h⟩

/-! ### The lesser and the greater of two numbers -/

omit [OrderedScalar α] in
theorem lower_eq_or (a b : α) : lower a b = a ∨ lower a b = b := by
  unfold lower
  split
  · exact Or.inr rfl
  · exact Or.inl rfl

theorem lower_le_left (ha : isNaN a = false) : le (lower a b) a := by
  unfold lower
  split
  · rename_i h
    exact le_of_lt h
  · exact le_refl ha

theorem lower_le_right (ha : isNaN a = false) (hb : isNaN b = false) : le (lower a b) b := by
  unfold lower
  split
  · exact le_refl hb
  · rename_i h
    exact le_of_not_lt ha hb (by simpa using h)

theorem isNaN_lower (ha : isNaN a = false) : isNaN (lower a b) = false :=
  not_nan_left (lower_le_left ha)

omit [OrderedScalar α] in
theorem le_lower (ha : le c a) (hb : le c b) : le c (lower a b) := by
  rcases lower_eq_or a b with h | h <;> rw [h] <;> assumption

omit [OrderedScalar α] in
theorem lower_eq_left (h : lt b a = false) : lower a b = a := by
  simp [lower, h]

omit [OrderedScalar α] in
theorem lower_eq_right (h : lt b a) : lower a b = b := by
  simp [lower, h]

theorem not_lt_lower (a b : α) : lt b (lower a b) = false := by
  by_cases h : lt b a
  · rw [lower_eq_right h, lt_irrefl]
  · rw [Bool.not_eq_true] at h
    rw [lower_eq_left h, h]

theorem lt_lower_left (a b : α) : lt (lower a b) a = lt b a := by
  by_cases h : lt b a
  · rw [lower_eq_right h]
  · rw [Bool.not_eq_true] at h
    rw [lower_eq_left h, h, lt_irrefl]

/-- The greater of two numbers bounds both, unless the first is a NaN. -/
theorem le_upper (ha : isNaN (upper a b) = false) (hb : isNaN b = false) :
    le a (upper a b) ∧ le b (upper a b) := by
  unfold upper at ha ⊢
  split
  · rename_i h
    exact ⟨le_of_lt h, le_refl hb⟩
  · rename_i h
    rw [if_neg h] at ha
    exact ⟨le_refl ha, le_of_not_lt hb ha (by simpa using h)⟩

omit [OrderedScalar α] in
theorem upper_le (ha : le a c) (hb : le b c) : le (upper a b) c := by
  unfold upper
  split
  · exact hb
  · exact ha

omit [OrderedScalar α] in
theorem isNaN_upper (ha : isNaN a = false) (hb : isNaN b = false) : isNaN (upper a b) = false := by
  unfold upper
  split
  · exact hb
  · exact ha

/-! ### The least of some candidates -/

theorem foldl_lower_spec (l : List α) (ha : isNaN a = false) :
    isNaN (l.foldl lower a) = false ∧ le (l.foldl lower a) a ∧
      ∀ v ∈ l, isNaN v = false → le (l.foldl lower a) v := by
  induction l generalizing a with
  | nil => exact ⟨ha, le_refl ha, by simp⟩
  | cons x l ih =>
    obtain ⟨h1, h2, h3⟩ := ih (isNaN_lower (b := x) ha)
    refine ⟨h1, le_trans h2 (lower_le_left ha), ?_⟩
    intro v hv hn
    rcases List.mem_cons.mp hv with rfl | hv
    · exact le_trans h2 (lower_le_right ha hn)
    · exact h3 v hv hn

omit [OrderedScalar α] in
theorem foldl_lower_mem (l : List α) (a : α) : l.foldl lower a = a ∨ l.foldl lower a ∈ l := by
  induction l generalizing a with
  | nil => exact Or.inl rfl
  | cons x l ih =>
    rw [List.foldl_cons]
    rcases ih (lower a x) with h | h
    · rw [h]
      rcases lower_eq_or a x with hl | hl
      · exact Or.inl hl
      · exact Or.inr (by simp [hl])
    · exact Or.inr (List.mem_cons_of_mem _ h)

@[simp] theorem isNaN_leastOf (l : List α) : isNaN (leastOf l) = false :=
  (foldl_lower_spec l isNaN_inf).1

theorem leastOf_le {l : List α} {v : α} (hv : v ∈ l) (hn : isNaN v = false) :
    le (leastOf l) v :=
  (foldl_lower_spec l isNaN_inf).2.2 v hv hn

omit [OrderedScalar α] in
theorem leastOf_mem (l : List α) : leastOf l = inf ∨ leastOf l ∈ l := foldl_lower_mem l inf

/-- Below infinity the least of some candidates is one of them. -/
theorem leastOf_mem_of_lt {l : List α} (h : lt (leastOf l) inf) : leastOf l ∈ l := by
  rcases leastOf_mem l with he | hm
  · rw [he, lt_irrefl] at h
    cases h
  · exact hm

/-- More candidates give no greater least one. -/
theorem leastOf_anti {l l' : List α} (h : ∀ v ∈ l, v ∈ l') : le (leastOf l') (leastOf l) := by
  rcases leastOf_mem l with he | hm
  · rw [he]
    exact le_inf (isNaN_leastOf l')
  · exact leastOf_le (h _ hm) (isNaN_leastOf l)

end Scalar

end Eikonal
