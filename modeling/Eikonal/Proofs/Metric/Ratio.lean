import Eikonal.Metric.Ratio
import Eikonal.Proofs.Scalar.Exact

/-! The anisotropy ratio in exact arithmetic. The eigenvalues that are computed for a symmetric
tensor are its eigenvalues: they have the trace as their sum and the determinant as their product.
Bringing the tensor to another size and back changes nothing, so the ratio is the root of the
greater eigenvalue over the lesser. -/

namespace Eikonal

open Matrix

namespace Exact

theorem hypot_coe (x y : ℝ) :
    Scalar.hypot (x : EReal) y = ((√(x ^ 2 + y ^ 2) : ℝ) : EReal) := by
  have hone : ∀ z : ℝ,
      (Scalar.one : EReal) + Scalar.sq (z : EReal) = ((1 + z ^ 2 : ℝ) : EReal) := by
    intro z
    rw [one_eq, Scalar.sq, ← EReal.coe_mul, ← EReal.coe_one, ← EReal.coe_add, sq]
  -- the longer side comes out of the root
  have hlonger : ∀ a b : ℝ, 0 < a → (a : EReal) * Scalar.sqrt (Scalar.one +
      Scalar.sq ((b : EReal) / a)) = ((√(a ^ 2 + b ^ 2) : ℝ) : EReal) := by
    intro a b ha
    rw [← EReal.coe_div, hone, sqrt_coe, ← EReal.coe_mul]
    congr 1
    rw [show a ^ 2 + b ^ 2 = a ^ 2 * (1 + (b / a) ^ 2) by field_simp,
      Real.sqrt_mul (sq_nonneg a), Real.sqrt_sq ha.le]
  unfold Scalar.hypot
  simp only [abs_coe, ← sq_abs x, ← sq_abs y]
  rcases lt_trichotomy |x| |y| with h | h | h
  · have h' : ((|x| : ℝ) : EReal) < (|y| : ℝ) := EReal.coe_lt_coe_iff.mpr h
    rw [if_neg (by rw [lt_iff]; exact not_lt.mpr h'.le), if_pos (lt_iff.mpr h'),
      hlonger _ _ ((abs_nonneg x).trans_lt h), add_comm]
  · rw [if_neg (by rw [lt_iff, h]; exact lt_irrefl _),
      if_neg (by rw [lt_iff, h]; exact lt_irrefl _),
      if_pos (by rw [eq_iff, h]), two_eq, sqrt_coe, ← EReal.coe_mul, h, ← two_mul, mul_comm 2,
      Real.sqrt_mul (sq_nonneg _), Real.sqrt_sq (abs_nonneg y)]
  · have h' : ((|y| : ℝ) : EReal) < (|x| : ℝ) := EReal.coe_lt_coe_iff.mpr h
    rw [if_pos (lt_iff.mpr h'), hlonger _ _ ((abs_nonneg y).trans_lt h)]

end Exact

namespace Tensor

/-! ### Eigenvalues -/

section Eigenvalues

variable {a b c : ℝ}

/-- A symmetric tensor with a positive first entry and a positive determinant has two positive
eigenvalues. -/
theorem exists_symmetricEigenvalues (ha : 0 < a) (hdet : b ^ 2 < a * c) :
    ∃ p q : ℝ, 0 < p ∧ 0 < q ∧ p + q = a + c ∧ p * q = a * c - b ^ 2 ∧
      symmetricEigenvalues (a : EReal) b c = ((p : EReal), (q : EReal)) := by
  have hc : 0 < c := pos_of_mul_pos_right ((sq_nonneg b).trans_lt hdet) ha.le
  have hsum : 0 < a + c := add_pos ha hc
  set g := √((a - c) ^ 2 + (b + b) ^ 2) with hg
  have hg0 : 0 ≤ g := Real.sqrt_nonneg _
  have hgap : g ^ 2 = (a - c) ^ 2 + (b + b) ^ 2 := Real.sq_sqrt (by positivity)
  have hlt : g < a + c := by
    refine lt_of_pow_lt_pow_left₀ 2 hsum.le ?_
    rw [hgap]
    linarith
  set p := 1 / 2 * (a + c + g) with hp
  have hp0 : 0 < p := by positivity
  have hprod : p * (a + c - p) = a * c - b ^ 2 := by
    rw [hp]
    linear_combination -(1 / 4) * hgap
  refine ⟨p, a + c - p, hp0, by rw [hp]; linarith, by ring, hprod, ?_⟩
  have hhalf : (Scalar.one : EReal) / Scalar.two = ((1 / 2 : ℝ) : EReal) := by
    rw [Exact.one_eq, Exact.two_eq, ← EReal.coe_one, ← EReal.coe_div]
  have hother : ∀ x y : ℝ, x * y = a * c →
      (x : EReal) / p * y - b / p * b = ((a + c - p : ℝ) : EReal) := by
    intro x y hxy
    rw [← EReal.coe_div, ← EReal.coe_div, ← EReal.coe_mul, ← EReal.coe_mul, ← EReal.coe_sub]
    congr 1
    field_simp
    linarith
  unfold symmetricEigenvalues
  dsimp only
  rw [← EReal.coe_add a c, ← EReal.coe_sub a c, ← EReal.coe_add b b, Exact.hypot_coe, ← hg, hhalf,
    if_neg (by rw [Exact.lt_iff, Exact.zero_eq, not_lt]; exact_mod_cast hsum.le),
    if_pos (by rw [Exact.lt_iff, Exact.zero_eq]; exact_mod_cast hsum), ← EReal.coe_add,
    ← EReal.coe_mul, ← hp]
  split
  · rw [hother c a (mul_comm c a)]
  · rw [hother a c rfl]

/-- The entry above the diagonal plays no part. -/
theorem exists_eigenvalues (b' : ℝ) (ha : 0 < a) (hdet : b ^ 2 < a * c) :
    ∃ p q : ℝ, 0 < p ∧ 0 < q ∧ p + q = a + c ∧ p * q = a * c - b ^ 2 ∧
      (⟨a, b', b, c⟩ : Tensor EReal).eigenvalues = ((p : EReal), (q : EReal)) := by
  have hc : 0 < c := pos_of_mul_pos_right ((sq_nonneg b).trans_lt hdet) ha.le
  by_cases hb : b = 0
  · refine ⟨a, c, ha, hc, rfl, by rw [hb]; ring, ?_⟩
    simp [eigenvalues, hb]
  · have hsquare : ¬Scalar.eq ((b * b : ℝ) : EReal) Scalar.zero := by
      rw [Exact.eq_iff, Exact.zero_eq, EReal.coe_eq_zero]
      exact mul_self_ne_zero.mpr hb
    rw [← sq_abs] at hdet ⊢
    obtain ⟨p, q, hp, hq, hsum, hprod, h⟩ := exists_symmetricEigenvalues ha hdet
    refine ⟨p, q, hp, hq, hsum, hprod, ?_⟩
    unfold eigenvalues
    dsimp only
    rw [← EReal.coe_mul, if_neg hsquare, Exact.sqrt_coe, Real.sqrt_mul_self_eq_abs, h]

end Eigenvalues

/-! ### The ratio -/

section Ratio

variable {a b c : ℝ}

theorem powerOfTwo_eq (n : ℕ) : (powerOfTwo n : EReal) = ((2 ^ n : ℝ) : EReal) :=
  congrArg Real.toEReal (Nat.cast_pow 2 n)

theorem exists_sizeFactor (b b' c : ℝ) (ha : 0 < a) :
    ∃ κ : ℝ, 0 < κ ∧ (⟨a, b', b, c⟩ : Tensor EReal).sizeFactor = κ := by
  set t : Tensor EReal := ⟨a, b', b, c⟩ with ht
  have hsize : t.size = ((max (max |a| |b|) |c| : ℝ) : EReal) := by
    simp only [ht, size, Exact.abs_coe, Exact.upper_eq, EReal.coe_strictMono.monotone.map_max]
  have hpos : 0 < max (max |a| |b|) |c| :=
    (abs_pos.mpr ha.ne').trans_le ((le_max_left _ _).trans (le_max_left _ _))
  have hpower : ∀ n : ℕ, (0 : ℝ) < 2 ^ n := fun n => pow_pos two_pos n
  have hcases : t.sizeFactor = leastSize / t.size ∨ t.sizeFactor = greatestSize / t.size ∨
      t.sizeFactor = Scalar.one := by
    unfold sizeFactor
    split
    · exact Or.inl rfl
    · split
      · exact Or.inr (Or.inl rfl)
      · exact Or.inr (Or.inr rfl)
  rcases hcases with h | h | h
  · refine ⟨1 / 2 ^ 405 / max (max |a| |b|) |c|, div_pos (div_pos one_pos (hpower 405)) hpos, ?_⟩
    rw [h, leastSize, hsize, powerOfTwo_eq, Exact.one_eq, EReal.coe_div, EReal.coe_div,
      EReal.coe_one]
  · refine ⟨2 ^ 485 / max (max |a| |b|) |c|, div_pos (hpower 485) hpos, ?_⟩
    rw [h, greatestSize, hsize, powerOfTwo_eq, EReal.coe_div]
  · exact ⟨1, one_pos, h⟩

/-- The ratio is the root of the greater eigenvalue over the lesser. -/
theorem exists_ratio (b' : ℝ) (ha : 0 < a) (hdet : b ^ 2 < a * c) :
    ∃ p q : ℝ, 0 < p ∧ 0 < q ∧ p + q = a + c ∧ p * q = a * c - b ^ 2 ∧
      (⟨a, b', b, c⟩ : Tensor EReal).ratio = ((√(max p q / min p q) : ℝ) : EReal) := by
  obtain ⟨κ, hκ, hfactor⟩ := exists_sizeFactor b b' c ha
  have hscale : (⟨a, b', b, c⟩ : Tensor EReal).scale (κ : EReal) =
      ⟨(κ * a : ℝ), (κ * b' : ℝ), (κ * b : ℝ), (κ * c : ℝ)⟩ := by
    simp only [scale, ← EReal.coe_mul]
  have hκdet : (κ * b) ^ 2 < κ * a * (κ * c) := by
    have := mul_lt_mul_of_pos_left hdet (pow_pos hκ 2)
    linarith
  obtain ⟨p, q, hp, hq, hsum, hprod, h⟩ := exists_eigenvalues (κ * b') (mul_pos hκ ha) hκdet
  have hfinite : [((a : ℝ) : EReal), b, c].all Scalar.isFinite := by
    simp
  refine ⟨p * (1 / κ), q * (1 / κ), by positivity, by positivity, ?_, ?_, ?_⟩
  · field_simp
    linarith
  · field_simp
    linarith
  · unfold ratio
    dsimp only
    rw [if_pos hfinite, hfactor, hscale, h]
    dsimp only
    rw [Exact.one_eq, ← EReal.coe_one, ← EReal.coe_div, ← EReal.coe_mul, ← EReal.coe_mul,
      Exact.upper_eq, Exact.lower_eq, ← EReal.coe_strictMono.monotone.map_max,
      ← EReal.coe_strictMono.monotone.map_min, ← EReal.coe_div, Exact.sqrt_coe]

end Ratio

end Tensor

end Eikonal
