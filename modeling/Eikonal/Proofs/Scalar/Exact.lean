import Eikonal.Plane
import Eikonal.Proofs.Scalar.Rank

/-! Exact scalars: the real numbers with an infinity on either side. Nothing is rounded and there
are no NaNs, so a comparison of scalars is one of numbers, and the vectors and tensors of the plane
are those of linear algebra. -/

namespace Eikonal

open Matrix

noncomputable instance : Scalar EReal where
  zero := 0
  one := 1
  inf := ⊤
  natCast n := (n : ℝ)
  decimal m e := (m / 10 ^ e : ℝ)
  sqrt x := if x = ⊤ then ⊤ else (√x.toReal : ℝ)
  atan2 y x := (Complex.arg ⟨x.toReal, y.toReal⟩ : ℝ)
  cos x := (Real.cos x.toReal : ℝ)
  sin x := (Real.sin x.toReal : ℝ)
  lt a b := decide (a < b)
  eq a b := decide (a = b)
  isFinite a := decide (a ≠ ⊤ ∧ a ≠ ⊥)

namespace Exact

variable {a b : EReal}

@[simp] theorem zero_eq : (Scalar.zero : EReal) = 0 := rfl

@[simp] theorem one_eq : (Scalar.one : EReal) = 1 := rfl

@[simp] theorem two_eq : (Scalar.two : EReal) = ((2 : ℝ) : EReal) := by
  simp [Scalar.two, Scalar.natCast]

theorem decimal_eq (m e : ℕ) : (Scalar.decimal m e : EReal) = ((m / 10 ^ e : ℝ) : EReal) := rfl

@[simp] theorem sqrt_coe (x : ℝ) : Scalar.sqrt (x : EReal) = ((√x : ℝ) : EReal) := by
  simp [Scalar.sqrt]

@[simp] theorem lt_iff : Scalar.lt a b ↔ a < b := by
  simp [Scalar.lt]

@[simp] theorem eq_iff : Scalar.eq a b ↔ a = b := by
  simp [Scalar.eq]

@[simp] theorem le_iff : Scalar.le a b ↔ a ≤ b := by
  rw [Scalar.le, Bool.or_eq_true, lt_iff, eq_iff, le_iff_lt_or_eq]

@[simp] theorem isNaN_eq (a : EReal) : Scalar.isNaN a = false := by
  simp [Scalar.isNaN, Scalar.eq]

@[simp] theorem isFinite_iff : Scalar.isFinite a ↔ a ≠ ⊤ ∧ a ≠ ⊥ := by
  simp [Scalar.isFinite]

@[simp] theorem upper_eq (a b : EReal) : Scalar.upper a b = max a b := by
  unfold Scalar.upper
  split
  · rename_i h
    rw [max_eq_right (lt_iff.mp h).le]
  · rename_i h
    rw [max_eq_left (not_lt.mp (lt_iff.not.mp h))]

@[simp] theorem lower_eq (a b : EReal) : Scalar.lower a b = min a b := by
  unfold Scalar.lower
  split
  · rename_i h
    rw [min_eq_right (lt_iff.mp h).le]
  · rename_i h
    rw [min_eq_left (not_lt.mp (lt_iff.not.mp h))]

/-- The root of a number that is raised to zero if it is negative. -/
@[simp] theorem sqrt_max_zero (x : ℝ) : Scalar.sqrt (max (x : EReal) 0) = ((√x : ℝ) : EReal) := by
  rcases le_total x 0 with h | h
  · rw [max_eq_right (by exact_mod_cast h), Real.sqrt_eq_zero_of_nonpos h, ← EReal.coe_zero,
      sqrt_coe, Real.sqrt_zero]
  · rw [max_eq_left (by exact_mod_cast h), sqrt_coe]

theorem abs_coe (x : ℝ) : Scalar.abs (x : EReal) = ((|x| : ℝ) : EReal) := by
  unfold Scalar.abs
  split
  · rename_i h
    rw [abs_of_neg (by simpa using h)]
    rfl
  · rename_i h
    rw [abs_of_nonneg (by simpa using h)]

end Exact

instance : OrderedScalar EReal := by
  -- an exact scalar ranks as itself
  have hlt : ∀ a b : EReal, Scalar.lt a b ↔ ∃ x ∈ some a, ∃ y ∈ some b, x < y := by simp
  have heq : ∀ a b : EReal, Scalar.eq a b ↔ ∃ x ∈ some a, ∃ y ∈ some b, x = y := by
    intro a b
    rw [Exact.eq_iff]
    exact ⟨fun h => ⟨a, rfl, b, rfl, h⟩, by rintro ⟨x, ⟨⟩, y, ⟨⟩, h⟩; exact h⟩
  refine orderedScalar_of_rank hlt heq 0 ⊤ (by simp) rfl rfl (by simp) ?_ ?_
  · intro a ha
    exact ⟨a, rfl, lt_top_iff_ne_top.mpr (Exact.isFinite_iff.mp ha).1⟩
  · intro a x hx h0 h1
    cases hx
    exact Exact.isFinite_iff.mpr ⟨h1.ne, (EReal.bot_lt_zero.trans_le h0).ne'⟩

instance : LawfulScalar EReal where
  le_add hu hx := by
    simp only [Exact.le_iff, Exact.zero_eq] at *
    exact le_add_of_nonneg_right hx
  not_nan_of_add _ := Exact.isNaN_eq _
  sqrt_nonneg {x} _ := by
    simp only [Exact.le_iff, Exact.zero_eq, Scalar.sqrt]
    split
    · exact le_top
    · exact_mod_cast Real.sqrt_nonneg _
  not_nan_of_sqrt _ := Exact.isNaN_eq _

/-! ### The plane -/

def Vec.ofReal (v : Fin 2 → ℝ) : Vec EReal := ⟨v 0, v 1⟩

def Tensor.ofReal (M : Matrix (Fin 2) (Fin 2) ℝ) : Tensor EReal := ⟨M 0 0, M 0 1, M 1 0, M 1 1⟩

namespace Exact

variable (v w : Fin 2 → ℝ) (M : Matrix (Fin 2) (Fin 2) ℝ)

@[simp] theorem ofReal_sub : Vec.ofReal v - Vec.ofReal w = Vec.ofReal (v - w) := by
  show (⟨_, _⟩ : Vec EReal) = ⟨_, _⟩
  simp [Vec.ofReal]

@[simp] theorem dot_ofReal : (Vec.ofReal v).dot (Vec.ofReal w) = ((v ⬝ᵥ w : ℝ) : EReal) := by
  simp [Vec.dot, Vec.ofReal, dotProduct, Fin.sum_univ_two]

@[simp] theorem row_ofReal : (Tensor.ofReal M).row (Vec.ofReal v) = Vec.ofReal (v ᵥ* M) := by
  simp [Tensor.row, Tensor.ofReal, Vec.ofReal, vecMul, dotProduct, Fin.sum_univ_two]

@[simp] theorem form_ofReal :
    (Tensor.ofReal M).form (Vec.ofReal v) (Vec.ofReal w) = ((v ⬝ᵥ M *ᵥ w : ℝ) : EReal) := by
  rw [Tensor.form, row_ofReal, dot_ofReal, dotProduct_mulVec]

@[simp] theorem norm_ofReal : (Vec.ofReal v).norm = ((√(v ⬝ᵥ v) : ℝ) : EReal) := by
  simp only [Vec.norm, Vec.ofReal, ← EReal.coe_mul, ← EReal.coe_add, sqrt_coe]
  simp [dotProduct, Fin.sum_univ_two]

@[simp] theorem cross_ofReal :
    (Vec.ofReal v).cross (Vec.ofReal w) = ((v 0 * w 1 - v 1 * w 0 : ℝ) : EReal) := by
  simp [Vec.cross, Vec.ofReal]

theorem angle_ofReal : (Vec.ofReal v).angle = ((Complex.arg ⟨v 0, v 1⟩ : ℝ) : EReal) := by
  simp [Vec.angle, Scalar.atan2, Vec.ofReal]

theorem det_ofReal : (Tensor.ofReal M).det = ((M.det : ℝ) : EReal) := by
  simp [Tensor.det, Tensor.ofReal, det_fin_two]

@[simp] theorem length_ofReal :
    (Tensor.ofReal M).length (Vec.ofReal v) = ((√(v ⬝ᵥ M *ᵥ v) : ℝ) : EReal) := by
  rw [Tensor.length, form_ofReal, upper_eq, zero_eq, sqrt_max_zero]

end Exact

end Eikonal
