import Mathlib
import Eikonal.Proofs.Stencil.Least

/-! Plane waves in exact arithmetic. The times of a plane wave have a slowness vector of unit length
in the inverse metric. By the inequality of Cauchy and Schwarz none of them is later than a way from
another point allows, and along a characteristic they are as late as that. So an update between two
points of the wave is never too early, and where the characteristic comes from the segment between
them, only the clamp makes it too late. -/

namespace Eikonal.Stencil

open Matrix

section PlaneWave

variable {c j k p : Fin 2 → ℝ} {M : Matrix (Fin 2) (Fin 2) ℝ}

/-- The square of the length of a way, less a part along the characteristic. -/
theorem form_sub_smul (hM : M.PosDef) (hp : p ⬝ᵥ M⁻¹ *ᵥ p = 1) (d : Fin 2 → ℝ) (t : ℝ) :
    (d - t • M⁻¹ *ᵥ p) ⬝ᵥ M *ᵥ (d - t • M⁻¹ *ᵥ p) = d ⬝ᵥ M *ᵥ d - 2 * t * (p ⬝ᵥ d) + t ^ 2 := by
  have hback : M *ᵥ M⁻¹ *ᵥ p = p := by
    rw [mulVec_mulVec, mul_nonsing_inv M hM.det_pos.ne'.isUnit, one_mulVec]
  have hcross : (M⁻¹ *ᵥ p) ⬝ᵥ M *ᵥ d = p ⬝ᵥ d := by
    have hsymm : Mᵀ = M := hM.isHermitian
    rw [dotProduct_mulVec, ← mulVec_transpose, hsymm, hback]
  rw [mulVec_sub, mulVec_smul, hback, sub_dotProduct, dotProduct_sub, dotProduct_sub,
    smul_dotProduct, smul_dotProduct, dotProduct_smul, dotProduct_smul, hcross,
    dotProduct_comm d p, dotProduct_comm _ p, hp]
  simp only [smul_eq_mul]
  ring

theorem dotProduct_le_sqrt_form (hM : M.PosDef) (hp : p ⬝ᵥ M⁻¹ *ᵥ p = 1) (d : Fin 2 → ℝ) :
    p ⬝ᵥ d ≤ √(d ⬝ᵥ M *ᵥ d) := by
  apply Real.le_sqrt_of_sq_le
  -- what is left of the way beside the characteristic
  have hrest := hM.posSemidef.dotProduct_mulVec_nonneg (d - (p ⬝ᵥ d) • M⁻¹ *ᵥ p)
  rw [star_trivial, form_sub_smul hM hp] at hrest
  linarith

/-- A characteristic runs straight across the wave. -/
theorem sqrt_form_smul (hM : M.PosDef) (hp : p ⬝ᵥ M⁻¹ *ᵥ p = 1) {t : ℝ} (ht : 0 ≤ t) :
    √((t • M⁻¹ *ᵥ p) ⬝ᵥ M *ᵥ (t • M⁻¹ *ᵥ p)) = p ⬝ᵥ (t • M⁻¹ *ᵥ p) := by
  have htime : p ⬝ᵥ (t • M⁻¹ *ᵥ p) = t := by
    rw [dotProduct_smul, hp, smul_eq_mul, mul_one]
  have hrest := form_sub_smul hM hp (t • M⁻¹ *ᵥ p) t
  rw [sub_self, zero_dotProduct, htime] at hrest
  have hform : (t • M⁻¹ *ᵥ p) ⬝ᵥ M *ᵥ (t • M⁻¹ *ᵥ p) = t ^ 2 := by linarith
  rw [hform, htime, Real.sqrt_sq ht]

/-- On a chord the interpolated time is that of the wave. -/
theorem planeWave_chord (p c j k : Fin 2 → ℝ) (l : ℝ) : l * (p ⬝ᵥ j) + (1 - l) * (p ⬝ᵥ k) =
    p ⬝ᵥ c - p ⬝ᵥ (c - (l • j + (1 - l) • k)) := by
  simp only [dotProduct_sub, dotProduct_add, dotProduct_smul, smul_eq_mul]
  ring

theorem planeWave_le_arrival (hM : M.PosDef) (hp : p ⬝ᵥ M⁻¹ *ᵥ p = 1) (l : ℝ) :
    p ⬝ᵥ c ≤ (chord c j k (p ⬝ᵥ j) (p ⬝ᵥ k) M).arrival l := by
  rw [arrival_chord hM.isHermitian, planeWave_chord p c]
  linarith [dotProduct_le_sqrt_form hM hp (c - (l • j + (1 - l) • k))]

theorem arrival_eq_planeWave (hM : M.PosDef) (hp : p ⬝ᵥ M⁻¹ *ᵥ p = 1) {t l : ℝ} (ht : 0 ≤ t)
    (hl : l • j + (1 - l) • k = c - t • M⁻¹ *ᵥ p) :
    (chord c j k (p ⬝ᵥ j) (p ⬝ᵥ k) M).arrival l = p ⬝ᵥ c := by
  have hway : c - (l • j + (1 - l) • k) = t • M⁻¹ *ᵥ p := by
    rw [hl, sub_sub_cancel]
  rw [arrival_chord hM.isHermitian, planeWave_chord p c, hway, sqrt_form_smul hM hp ht,
    sub_add_cancel]

/-- In exact arithmetic an update between two points of a plane wave is not earlier than the wave at
any of the three points. If the characteristic through the cell comes from the segment, it is no
later than the latest of them. -/
theorem planeWave_le_triangle (hM : M.PosDef) (hp : p ⬝ᵥ M⁻¹ *ᵥ p = 1)
    (h : ¬Collinear ℝ {c, j, k}) :
    ((max (max (p ⬝ᵥ c) (p ⬝ᵥ j)) (p ⬝ᵥ k) : ℝ) : EReal) ≤
        triangle (.ofReal c) (.ofReal j) (p ⬝ᵥ j : ℝ) (.ofReal k) (p ⬝ᵥ k : ℝ) (.ofReal M) ∧
      ((∃ t : ℝ, 0 ≤ t ∧ c - t • M⁻¹ *ᵥ p ∈ segment ℝ j k) →
        triangle (.ofReal c) (.ofReal j) (p ⬝ᵥ j : ℝ) (.ofReal k) (p ⬝ᵥ k : ℝ) (.ofReal M) =
          ((max (max (p ⬝ᵥ c) (p ⬝ᵥ j)) (p ⬝ᵥ k) : ℝ) : EReal)) := by
  obtain ⟨m, hm, hleast⟩ := (proper_chord hM h (p ⬝ᵥ j) (p ⬝ᵥ k)).exists_isLeast
  have hvalue : triangle (.ofReal c) (.ofReal j) (p ⬝ᵥ j : ℝ) (.ofReal k) (p ⬝ᵥ k : ℝ)
      (.ofReal M) = ((max (max m (p ⬝ᵥ j)) (p ⬝ᵥ k) : ℝ) : EReal) := by
    rw [triangle, of_ofReal, Chord.value, hleast, Exact.upper_eq, Exact.upper_eq]
    simp only [Chord.ofReal, chord, EReal.coe_strictMono.monotone.map_max]
  have hlower : p ⬝ᵥ c ≤ m := by
    obtain ⟨l, -, hl⟩ := hm.1
    exact (planeWave_le_arrival hM hp l).trans_eq hl
  rw [hvalue, EReal.coe_le_coe_iff, EReal.coe_eq_coe_iff]
  refine ⟨max_le_max_right _ (max_le_max_right _ hlower), ?_⟩
  rintro ⟨t, ht, a, b, ha, hb, hsum, hmeet⟩
  obtain rfl : b = 1 - a := by linarith
  have hupper : m ≤ p ⬝ᵥ c :=
    (hm.2 ⟨a, ⟨ha, by linarith⟩, rfl⟩).trans_eq (arrival_eq_planeWave hM hp ht hmeet)
  rw [hupper.antisymm hlower]

/-- A wave along the axis that is twice as slow. -/
theorem planeWave_le_triangle_sample :
    triangle (.ofReal ![1, 0]) (.ofReal ![0, 1]) ((0 : ℝ) : EReal) (.ofReal ![0, -1])
      ((0 : ℝ) : EReal) (.ofReal (diagonal ![4, 1])) = ((2 : ℝ) : EReal) := by
  have hM : (diagonal ![4, 1] : Matrix (Fin 2) (Fin 2) ℝ).PosDef := by
    refine PosDef.diagonal fun i => ?_
    fin_cases i <;> norm_num
  have hinv : (diagonal ![4, 1] : Matrix (Fin 2) (Fin 2) ℝ)⁻¹ *ᵥ ![2, 0] = ![1 / 2, 0] := by
    rw [inv_eq_right_inv (B := diagonal ![1 / 4, 1])]
    · ext i
      fin_cases i <;> norm_num [mulVec_diagonal]
    · rw [diagonal_mul_diagonal, ← diagonal_one]
      congr 1
      ext i
      fin_cases i <;> norm_num
  have h : ¬Collinear ℝ {(![1, 0] : Fin 2 → ℝ), ![0, 1], ![0, -1]} := by
    apply not_collinear_of_isWedge
    rw [isWedge_ofReal]
    norm_num [mul_assoc]
  have hvalue := (planeWave_le_triangle (p := ![2, 0]) hM (by rw [hinv]; simp) h).2
    ⟨2, zero_le_two, 1 / 2, 1 / 2, by norm_num, by norm_num, by norm_num, by
      rw [hinv]
      ext i
      fin_cases i <;> norm_num⟩
  simpa using hvalue

end PlaneWave

end Eikonal.Stencil
