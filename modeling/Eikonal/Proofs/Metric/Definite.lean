import Mathlib
import Eikonal.Proofs.Metric.Field
import Eikonal.Proofs.Metric.Ratio

/-! Which tensors of an accepted field are positive definite, in exact arithmetic. The check of
definiteness looks at the determinant of the tensor as it stands, and the check of symmetry allows
the off-diagonal entries to differ by an amount that does not shrink with the tensor. So a symmetric
tensor that is accepted is positive definite, but one whose off-diagonal entries differ by more than
its determinant bears is accepted too. -/

namespace Eikonal

open Matrix

/-! ### Forms in two variables -/

/-- A form whose first coefficient is positive is positive if its discriminant is negative. -/
theorem forall_form_pos_iff {a b c : ℝ} (ha : 0 < a) :
    (∀ d : Fin 2 → ℝ, d ≠ 0 → 0 < a * d 0 ^ 2 + 2 * b * (d 0 * d 1) + c * d 1 ^ 2) ↔
      b ^ 2 < a * c := by
  have hsquare : ∀ x y : ℝ, a * (a * x ^ 2 + 2 * b * (x * y) + c * y ^ 2) =
      (a * x + b * y) ^ 2 + (a * c - b ^ 2) * y ^ 2 := by
    intro x y
    ring
  constructor
  · intro h
    have hpos := mul_pos ha (h ![-b, a] fun h0 => ha.ne' (congrFun h0 1))
    simp only [cons_val_zero, cons_val_one] at hpos
    rw [hsquare, show a * -b + b * a = 0 by ring, zero_pow two_ne_zero, zero_add] at hpos
    linarith [pos_of_mul_pos_left hpos (sq_nonneg a)]
  · intro h d hd
    refine (mul_pos_iff_of_pos_left ha).mp ?_
    rw [hsquare]
    have hgap : 0 < a * c - b ^ 2 := sub_pos.mpr h
    by_cases hy : d 1 = 0
    · have hx : d 0 ≠ 0 := fun hx => hd (by ext i; fin_cases i <;> assumption)
      rw [hy]
      simp only [mul_zero, add_zero]
      positivity
    · positivity

namespace Tensor

variable {M : Matrix (Fin 2) (Fin 2) ℝ}

theorem form_ofReal_pos_iff (ha : 0 < M 0 0) :
    (∀ d : Fin 2 → ℝ, d ≠ 0 → 0 < (Tensor.ofReal M).form (.ofReal d) (.ofReal d)) ↔
      (M 0 1 - M 1 0) ^ 2 < 4 * M.det := by
  have hform : ∀ d : Fin 2 → ℝ, d ⬝ᵥ M *ᵥ d =
      M 0 0 * d 0 ^ 2 + 2 * ((M 0 1 + M 1 0) / 2) * (d 0 * d 1) + M 1 1 * d 1 ^ 2 := by
    intro d
    simp only [mulVec, dotProduct, Fin.sum_univ_two]
    ring
  simp only [Exact.form_ofReal, EReal.coe_pos, hform, forall_form_pos_iff ha, det_fin_two]
  constructor <;> intro h <;> linarith

/-- The symmetric matrix of the diagonal and the lower off-diagonal entry. -/
def lowerSymmetric (M : Matrix (Fin 2) (Fin 2) ℝ) : Matrix (Fin 2) (Fin 2) ℝ :=
  .of fun i j => M (max i j) (min i j)

theorem lowerSymmetric_eq (M : Matrix (Fin 2) (Fin 2) ℝ) :
    lowerSymmetric M = !![M 0 0, M 1 0; M 1 0, M 1 1] := by
  ext i j
  fin_cases i <;> fin_cases j <;> rfl

theorem isHermitian_lowerSymmetric (M : Matrix (Fin 2) (Fin 2) ℝ) :
    (lowerSymmetric M).IsHermitian := by
  ext i j
  fin_cases i <;> fin_cases j <;> rfl

theorem eigenvalues_pos_iff (ha : 0 < M 0 0) :
    (∀ i, 0 < (isHermitian_lowerSymmetric M).eigenvalues i) ↔
      M 1 0 * (M 1 0 - M 0 1) < M.det := by
  have hform : ∀ d : Fin 2 → ℝ, star d ⬝ᵥ lowerSymmetric M *ᵥ d =
      M 0 0 * d 0 ^ 2 + 2 * M 1 0 * (d 0 * d 1) + M 1 1 * d 1 ^ 2 := by
    intro d
    simp only [star_trivial, mulVec, dotProduct, Fin.sum_univ_two, lowerSymmetric_eq, of_apply,
      cons_val_zero, cons_val_one]
    ring
  rw [← (isHermitian_lowerSymmetric M).posDef_iff_eigenvalues_pos, posDef_iff_dotProduct_mulVec,
    and_iff_right (isHermitian_lowerSymmetric M)]
  simp only [ne_eq, hform, forall_form_pos_iff ha, det_fin_two]
  constructor <;> intro h <;> linarith

theorem exists_ratio_ofReal (ha : 0 < M 0 0) (h : M 1 0 * (M 1 0 - M 0 1) < M.det) :
    ∃ r : ℝ, 1 ≤ r ∧ (Tensor.ofReal M).ratio = r := by
  rw [det_fin_two] at h
  obtain ⟨p, q, hp, hq, -, -, hratio⟩ :=
    exists_ratio (b := M 1 0) (c := M 1 1) (M 0 1) ha (by linarith)
  refine ⟨_, ?_, hratio⟩
  rw [Real.one_le_sqrt, one_le_div (lt_min hp hq)]
  exact min_le_max

/-! ### The checks -/

/-- What the checks ask of a tensor of real numbers. -/
structure Accepted (M : Matrix (Fin 2) (Fin 2) ℝ) : Prop where
  abs_sub_le : |M 0 1 - M 1 0| ≤ 1 / 10 ^ 10 * max (|M 0 0| + |M 1 1|) 1
  diag_pos : 0 < M 0 0
  det_pos : 0 < M.det

theorem isFinite_iff {t : Tensor EReal} : t.isFinite ↔ ∃ M, t = .ofReal M := by
  constructor
  · intro h
    simp only [isFinite, entries, List.all_cons, List.all_nil, Bool.and_true, Bool.and_eq_true,
      Exact.isFinite_iff] at h
    obtain ⟨⟨h1, h1'⟩, ⟨h2, h2'⟩, ⟨h3, h3'⟩, h4, h4'⟩ := h
    refine ⟨!![t.xx.toReal, t.xy.toReal; t.yx.toReal, t.yy.toReal], ?_⟩
    simp [Tensor.ofReal, EReal.coe_toReal, *]
  · rintro ⟨M, rfl⟩
    simp [isFinite, entries, Tensor.ofReal]

theorem isAsymmetric_ofReal : (Tensor.ofReal M).isAsymmetric MetricField.tolerance = false ↔
    |M 0 1 - M 1 0| ≤ 1 / 10 ^ 10 * max (|M 0 0| + |M 1 1|) 1 := by
  have hupper : ∀ x y : ℝ, Scalar.upperOrNaN (x : EReal) y = ((max x y : ℝ) : EReal) := by
    intro x y
    rw [Scalar.upperOrNaN, Exact.isNaN_eq, Bool.false_or]
    split
    · rename_i h
      rw [max_eq_left (EReal.coe_lt_coe_iff.mp (Exact.lt_iff.mp h)).le]
    · rename_i h
      rw [Exact.lt_iff, not_lt, EReal.coe_le_coe_iff] at h
      rw [max_eq_right h]
  rw [isAsymmetric, MetricField.tolerance, Exact.decimal_eq, Bool.eq_false_iff, ne_eq,
    Exact.lt_iff, not_lt]
  simp only [Tensor.ofReal, Exact.abs_coe, Exact.one_eq]
  rw [← EReal.coe_sub, Exact.abs_coe, ← EReal.coe_add, ← EReal.coe_one, hupper, ← EReal.coe_mul,
    EReal.coe_le_coe_iff, Nat.cast_one]

theorem isIndefinite_ofReal :
    (Tensor.ofReal M).isIndefinite = false ↔ 0 < M 0 0 ∧ 0 < M.det := by
  rw [isIndefinite, Bool.or_eq_false_iff, Bool.eq_false_iff, Bool.eq_false_iff, ne_eq, ne_eq,
    Exact.le_iff, Exact.le_iff, Exact.det_ofReal, Exact.zero_eq, not_le, not_le, EReal.coe_pos]
  simp only [Tensor.ofReal, EReal.coe_pos]

theorem ofReal_injective : Function.Injective Tensor.ofReal := by
  intro M N h
  simp only [Tensor.ofReal, Tensor.mk.injEq, EReal.coe_eq_coe_iff] at h
  ext i j
  fin_cases i <;> fin_cases j <;> simp [h]

/-- For a difference below the tolerance itself the size of the tensor does not matter. -/
theorem Accepted.of_abs_sub_le (hdiff : |M 0 1 - M 1 0| ≤ 1 / 10 ^ 10) (hdiag : 0 < M 0 0)
    (hdet : 0 < M.det) : Accepted M where
  abs_sub_le := hdiff.trans (le_mul_of_one_le_right (by positivity) (le_max_right _ 1))
  diag_pos := hdiag
  det_pos := hdet

theorem Accepted.of_posDef (hM : M.PosDef) : Accepted M := by
  have hsymm : M 1 0 = M 0 1 := by simpa using hM.isHermitian.apply 0 1
  refine .of_abs_sub_le ?_ hM.diag_pos hM.det_pos
  rw [hsymm, sub_self, abs_zero]
  positivity

end Tensor

/-- In exact arithmetic a field is read from an array if all its tensors are real and accepted. -/
theorem MetricField.ofArray_eq_ok_iff_accepted {n : ℤ} {metric : NdArray EReal}
    {field : MetricField EReal} : ofArray n metric = .ok field ↔
      tensors? n metric = some field ∧ ∀ t ∈ field, ∃ M, t = .ofReal M ∧ Tensor.Accepted M := by
  rw [ofArray_eq_ok_iff, Array.all_eq_true_iff_forall_mem, Array.findIdx?_eq_none_iff,
    Array.findIdx?_eq_none_iff]
  constructor
  · rintro ⟨h, hfinite, hsymm, hdefinite⟩
    refine ⟨h, fun t ht => ?_⟩
    obtain ⟨M, rfl⟩ := Tensor.isFinite_iff.mp (hfinite t ht)
    obtain ⟨hdiag, hdet⟩ := Tensor.isIndefinite_ofReal.mp (hdefinite _ ht)
    exact ⟨M, rfl, Tensor.isAsymmetric_ofReal.mp (hsymm _ ht), hdiag, hdet⟩
  · rintro ⟨h, hfield⟩
    refine ⟨h, fun t ht => ?_, fun t ht => ?_, fun t ht => ?_⟩ <;>
      obtain ⟨M, rfl, hM⟩ := hfield t ht
    · exact Tensor.isFinite_iff.mpr ⟨M, rfl⟩
    · exact Tensor.isAsymmetric_ofReal.mpr hM.abs_sub_le
    · exact Tensor.isIndefinite_ofReal.mpr ⟨hM.diag_pos, hM.det_pos⟩

namespace MetricField

/-- A tensor of an accepted field is positive definite as a form exactly if its determinant
outweighs the difference of its off-diagonal entries. The symmetric matrix of which the anisotropy
ratio is computed has two positive eigenvalues, and so a ratio, under a condition of its own.
Symmetric tensors meet both. -/
theorem definite_iff_of_ofArray {n : ℤ} {metric : NdArray EReal} {field : MetricField EReal}
    (h : ofArray n metric = .ok field) : ∀ t ∈ field, ∃ M : Matrix (Fin 2) (Fin 2) ℝ,
      t = .ofReal M ∧
      ((∀ d : Fin 2 → ℝ, d ≠ 0 → 0 < t.form (.ofReal d) (.ofReal d)) ↔
        (M 0 1 - M 1 0) ^ 2 < 4 * M.det) ∧
      ((∀ i, 0 < (Tensor.isHermitian_lowerSymmetric M).eigenvalues i) ↔
        M 1 0 * (M 1 0 - M 0 1) < M.det) ∧
      (M 1 0 * (M 1 0 - M 0 1) < M.det → ∃ r : ℝ, 1 ≤ r ∧ t.ratio = r) ∧
      (M.IsHermitian → M.PosDef ∧ M 1 0 * (M 1 0 - M 0 1) < M.det) := by
  intro t ht
  obtain ⟨M, rfl, hM⟩ := (ofArray_eq_ok_iff_accepted.mp h).2 t ht
  refine ⟨M, rfl, Tensor.form_ofReal_pos_iff hM.diag_pos, Tensor.eigenvalues_pos_iff hM.diag_pos,
    Tensor.exists_ratio_ofReal hM.diag_pos, fun hsymm => ?_⟩
  have hentries : M 1 0 = M 0 1 := by simpa using hsymm.apply 0 1
  have hdet := hM.det_pos
  refine ⟨.of_dotProduct_mulVec_pos hsymm fun d hd => ?_, by rwa [hentries, sub_self, mul_zero]⟩
  have hform := (Tensor.form_ofReal_pos_iff hM.diag_pos).mpr
    (by rw [hentries, sub_self, zero_pow two_ne_zero]; positivity) d hd
  rwa [Exact.form_ofReal, EReal.coe_pos] at hform

theorem ofArray_single {M : Matrix (Fin 2) (Fin 2) ℝ} (hM : Tensor.Accepted M) :
    ofArray 1 (toArray #[.ofReal M]) = .ok #[.ofReal M] :=
  ofArray_eq_ok_iff_accepted.mpr ⟨tensors?_toArray _, fun _ ht => ⟨M, by simpa using ht, hM⟩⟩

/-- The lower off-diagonal entry differs from the upper one, which is zero. -/
def skewed (size difference : ℝ) : Matrix (Fin 2) (Fin 2) ℝ := !![size, 0; difference, size]

/-- The difference may be as great as the tolerance, however small the tensor is. -/
theorem accepted_skewed {size difference : ℝ} (hsize : 0 < size)
    (hdifference : |difference| ≤ 1 / 10 ^ 10) : Tensor.Accepted (skewed size difference) := by
  refine .of_abs_sub_le ?_ hsize ?_
  · simpa [skewed] using hdifference
  · simpa [skewed, det_fin_two] using hsize.ne'

/-- In a tensor of ordinary size such a difference does no harm. -/
theorem definite_iff_of_ofArray_sample :
    ofArray 1 (toArray #[.ofReal (skewed 1 (5 / 10 ^ 11))]) =
        .ok #[.ofReal (skewed 1 (5 / 10 ^ 11))] ∧
      (∀ d : Fin 2 → ℝ, d ≠ 0 →
        0 < (Tensor.ofReal (skewed 1 (5 / 10 ^ 11))).form (.ofReal d) (.ofReal d)) ∧
      ∃ r : ℝ, 1 ≤ r ∧ (Tensor.ofReal (skewed 1 (5 / 10 ^ 11))).ratio = r := by
  have hread := ofArray_single (accepted_skewed one_pos
    (by norm_num [abs_of_pos] : |(5 / 10 ^ 11 : ℝ)| ≤ 1 / 10 ^ 10))
  obtain ⟨M, hM, hform, -, hratio, -⟩ :=
    definite_iff_of_ofArray hread _ (Array.mem_singleton.mpr rfl)
  obtain rfl := Tensor.ofReal_injective hM
  refine ⟨hread, hform.mpr ?_, hratio ?_⟩ <;> norm_num [skewed, det_fin_two]

/-- In a small one it makes the form of a segment negative, and one eigenvalue of the symmetric
matrix of the ratio. -/
theorem ofArray_skewed :
    ofArray 1 (toArray #[.ofReal (skewed (1 / 10 ^ 12) (5 / 10 ^ 11))]) =
        .ok #[.ofReal (skewed (1 / 10 ^ 12) (5 / 10 ^ 11))] ∧
      (Tensor.ofReal (skewed (1 / 10 ^ 12) (5 / 10 ^ 11))).form (.ofReal ![1, -1])
        (.ofReal ![1, -1]) < 0 ∧
      ∃ i, (Tensor.isHermitian_lowerSymmetric
        (skewed (1 / 10 ^ 12) (5 / 10 ^ 11))).eigenvalues i < 0 := by
  refine ⟨ofArray_single (accepted_skewed (by norm_num) (by norm_num [abs_of_pos])), ?_, ?_⟩
  · rw [Exact.form_ofReal, ← EReal.coe_zero, EReal.coe_lt_coe_iff]
    norm_num [skewed, mulVec, dotProduct, Fin.sum_univ_two]
  · by_contra! h
    have hdet : (Tensor.lowerSymmetric (skewed (1 / 10 ^ 12) (5 / 10 ^ 11))).det < 0 := by
      norm_num [det_fin_two, Tensor.lowerSymmetric_eq, skewed]
    rw [(Tensor.isHermitian_lowerSymmetric _).det_eq_prod_eigenvalues] at hdet
    exact hdet.not_ge (Finset.prod_nonneg fun i _ => h i)

end MetricField

end Eikonal
