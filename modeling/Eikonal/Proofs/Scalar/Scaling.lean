import Mathlib
import Eikonal.Proofs.Scalar.Exact

/-! Scaling of exact scalars. A positive real factor keeps the order and commutes with sums, with
the lesser and the greater of two numbers, and with the least of some candidates; infinity stays as
it is. A factor taken twice comes out of a root once. -/

namespace Eikonal.Exact

variable {κ : ℝ} {a b : EReal} (hκ : 0 < κ)
include hκ

theorem scale_strictMono : StrictMono fun a : EReal => (κ : EReal) * a := by
  have hinv : ∀ a : EReal, ((κ⁻¹ : ℝ) : EReal) * (κ * a) = a := by
    intro a
    rw [← mul_assoc, ← EReal.coe_mul, inv_mul_cancel₀ hκ.ne', EReal.coe_one, one_mul]
  have hmono : Monotone fun a : EReal => (κ : EReal) * a := fun a b hab =>
    mul_le_mul_of_nonneg_left hab (by exact_mod_cast hκ.le)
  refine hmono.strictMono_of_injective fun a b hab => ?_
  rw [← hinv a, ← hinv b]
  exact congrArg _ hab

theorem scale_lt : Scalar.lt ((κ : EReal) * a) (κ * b) = Scalar.lt a b := by
  rw [Bool.eq_iff_iff, lt_iff, lt_iff]
  exact (scale_strictMono hκ).lt_iff_lt

theorem scale_eq : Scalar.eq ((κ : EReal) * a) (κ * b) = Scalar.eq a b := by
  rw [Bool.eq_iff_iff, eq_iff, eq_iff]
  exact (scale_strictMono hκ).injective.eq_iff

theorem scale_add : (κ : EReal) * (a + b) = κ * a + κ * b :=
  EReal.left_distrib_of_nonneg_of_ne_top (by exact_mod_cast hκ.le) (EReal.coe_ne_top κ) a b

theorem scale_sub : (κ : EReal) * (a - b) = κ * a - κ * b := by
  rw [sub_eq_add_neg, scale_add hκ, mul_neg, ← sub_eq_add_neg]

theorem scale_lower : Scalar.lower ((κ : EReal) * a) (κ * b) = κ * Scalar.lower a b := by
  rw [Scalar.lower, scale_lt hκ, Scalar.lower]
  split <;> rfl

theorem scale_upper : Scalar.upper ((κ : EReal) * a) (κ * b) = κ * Scalar.upper a b := by
  rw [Scalar.upper, scale_lt hκ, Scalar.upper]
  split <;> rfl

theorem sqrt_scale : Scalar.sqrt ((κ : EReal) * (κ * a)) = κ * Scalar.sqrt a := by
  induction a with
  | bot =>
    rw [EReal.coe_mul_bot_of_pos hκ, EReal.coe_mul_bot_of_pos hκ]
    simp [Scalar.sqrt]
  | coe x =>
    rw [← EReal.coe_mul, ← EReal.coe_mul, sqrt_coe, sqrt_coe, ← EReal.coe_mul, ← mul_assoc,
      Real.sqrt_mul (mul_self_nonneg κ), Real.sqrt_mul_self hκ.le]
  | top =>
    rw [EReal.coe_mul_top_of_pos hκ, EReal.coe_mul_top_of_pos hκ]
    simp [Scalar.sqrt, EReal.coe_mul_top_of_pos hκ]

theorem scale_div : ((κ : EReal) * a) / (κ * b) = a / b := by
  rw [mul_comm _ a, mul_comm _ b]
  exact EReal.mul_div_mul_cancel (EReal.coe_ne_bot κ) (EReal.coe_ne_top κ)
    (by exact_mod_cast hκ.ne')

theorem scale_inf : (κ : EReal) * Scalar.inf = Scalar.inf := EReal.coe_mul_top_of_pos hκ

/-- The least of scaled candidates, in any order. -/
theorem leastOf_scale {l l' : List EReal} (h : ∀ v, v ∈ l' ↔ ∃ w ∈ l, (κ : EReal) * w = v) :
    Scalar.leastOf l' = κ * Scalar.leastOf l := by
  have hmono := (scale_strictMono hκ).monotone
  apply le_antisymm
  · by_cases hlt : Scalar.lt (Scalar.leastOf l) Scalar.inf
    · exact le_iff.mp (Scalar.leastOf_le ((h _).mpr ⟨_, Scalar.leastOf_mem_of_lt hlt, rfl⟩)
        (isNaN_eq _))
    · rw [lt_iff, not_lt] at hlt
      calc Scalar.leastOf l' ≤ ⊤ := le_top
        _ = (κ : EReal) * Scalar.inf := (scale_inf hκ).symm
        _ ≤ _ := hmono hlt
  · by_cases hlt : Scalar.lt (Scalar.leastOf l') Scalar.inf
    · obtain ⟨w, hw, hv⟩ := (h _).mp (Scalar.leastOf_mem_of_lt hlt)
      rw [← hv]
      exact hmono (le_iff.mp (Scalar.leastOf_le hw (isNaN_eq w)))
    · rw [lt_iff, not_lt] at hlt
      exact le_top.trans hlt

end Eikonal.Exact
