import Mathlib
import Eikonal.Proofs.Solver.Distance

/-! Triangle updates in exact arithmetic. The arrival over a chord lies above all its tangents, so
its slope grows along the chord. A point without slope is a minimum, and where no point is without
slope the slope keeps its sign: either way the update finds the least arrival over the segment. -/

namespace Eikonal.Stencil

open Matrix

namespace Chord

/-! ### Arrivals over a chord -/

/-- A chord of real numbers. -/
def ofReal (t : Chord ℝ) : Chord EReal := ⟨t.A, t.B, t.C, t.uj, t.uk⟩

/-- How much later the time of the first neighbour is. -/
def lead (t : Chord ℝ) : ℝ := t.uj - t.uk

/-- The determinant of the forms. -/
def gram (t : Chord ℝ) : ℝ := t.A * t.C - t.B * t.B

/-- The square of the way from the point at `l` to the cell. -/
def sqWay (t : Chord ℝ) (l : ℝ) : ℝ := t.A * l * l + t.B * (l + l) + t.C

/-- The arrival over the point at `l`. -/
noncomputable def arrival (t : Chord ℝ) (l : ℝ) : ℝ := t.uk + l * t.lead + √(t.sqWay l)

noncomputable def slope (t : Chord ℝ) (l : ℝ) : ℝ := t.lead + (t.A * l + t.B) / √(t.sqWay l)

/-- The place at which the slope vanishes, if it does anywhere. -/
noncomputable def flatPoint (t : Chord ℝ) : ℝ :=
  (-t.lead * √(t.gram / (t.A - t.lead * t.lead)) - t.B) / t.A

/-- The chord bounds a triangle with its cell. -/
structure Proper (t : Chord ℝ) : Prop where
  A_pos : 0 < t.A
  gram_pos : 0 < t.gram

variable {t : Chord ℝ} {l l₀ : ℝ}

theorem mul_sqWay (t : Chord ℝ) (l : ℝ) : t.A * t.sqWay l = (t.A * l + t.B) ^ 2 + t.gram := by
  unfold sqWay gram
  ring

namespace Proper

variable (ht : t.Proper)
include ht

theorem sqWay_pos (l : ℝ) : 0 < t.sqWay l := by
  have hmul : 0 < t.A * t.sqWay l := by
    rw [mul_sqWay]
    have := ht.gram_pos
    positivity
  exact pos_of_mul_pos_right hmul ht.A_pos.le

theorem sq_sqrt_sqWay (l : ℝ) : √(t.sqWay l) ^ 2 = t.sqWay l := Real.sq_sqrt (ht.sqWay_pos l).le

/-- The ways to two points of a chord obey the inequality of Cauchy and Schwarz. -/
theorem le_sqrt_mul_sqrt (l₀ l : ℝ) :
    t.A * l₀ * l + t.B * (l₀ + l) + t.C ≤ √(t.sqWay l₀) * √(t.sqWay l) := by
  rw [← Real.sqrt_mul (ht.sqWay_pos l₀).le]
  apply Real.le_sqrt_of_sq_le
  have hgap : t.sqWay l₀ * t.sqWay l =
      (t.A * l₀ * l + t.B * (l₀ + l) + t.C) ^ 2 + t.gram * (l - l₀) ^ 2 := by
    unfold sqWay gram
    ring
  have := mul_nonneg ht.gram_pos.le (sq_nonneg (l - l₀))
  linarith

/-- The arrival lies above its tangents. -/
theorem tangent_le (l₀ l : ℝ) : t.arrival l₀ + t.slope l₀ * (l - l₀) ≤ t.arrival l := by
  have hpos : 0 < √(t.sqWay l₀) := Real.sqrt_pos.mpr (ht.sqWay_pos l₀)
  have hway : √(t.sqWay l₀) + (t.A * l₀ + t.B) / √(t.sqWay l₀) * (l - l₀) ≤ √(t.sqWay l) := by
    have hsum : √(t.sqWay l₀) + (t.A * l₀ + t.B) / √(t.sqWay l₀) * (l - l₀) =
        (√(t.sqWay l₀) ^ 2 + (t.A * l₀ + t.B) * (l - l₀)) / √(t.sqWay l₀) := by
      field_simp
    rw [hsum, div_le_iff₀ hpos, ht.sq_sqrt_sqWay]
    have := ht.le_sqrt_mul_sqrt l₀ l
    unfold sqWay at this ⊢
    linarith
  unfold arrival slope
  linarith

theorem slope_mono : Monotone t.slope := by
  intro l₀ l hle
  rcases hle.eq_or_lt with rfl | hlt
  · exact le_rfl
  have h1 := ht.tangent_le l₀ l
  have h2 := ht.tangent_le l l₀
  have hmul : t.slope l₀ * (l - l₀) ≤ t.slope l * (l - l₀) := by linarith
  exact le_of_mul_le_mul_right hmul (sub_pos.mpr hlt)

theorem arrival_le_of_slope_nonneg (h : 0 ≤ t.slope l₀) (hl : l₀ ≤ l) :
    t.arrival l₀ ≤ t.arrival l := by
  have := mul_nonneg h (sub_nonneg.mpr hl)
  linarith [ht.tangent_le l₀ l]

theorem arrival_le_of_slope_nonpos (h : t.slope l₀ ≤ 0) (hl : l ≤ l₀) :
    t.arrival l₀ ≤ t.arrival l := by
  have := mul_nonneg_of_nonpos_of_nonpos h (sub_nonpos.mpr hl)
  linarith [ht.tangent_le l₀ l]

/-- If the times differ by less than the length of the chord, there is a point without slope. -/
theorem slope_flatPoint (hlead : t.lead * t.lead < t.A) : t.slope t.flatPoint = 0 := by
  have hA := ht.A_pos
  have hrest : 0 < t.A - t.lead * t.lead := sub_pos.mpr hlead
  have hgram := ht.gram_pos
  have hpoint : t.A * t.flatPoint + t.B = -t.lead * √(t.gram / (t.A - t.lead * t.lead)) := by
    unfold flatPoint
    rw [mul_div_cancel₀ _ hA.ne', sub_add_cancel]
  have hway : t.sqWay t.flatPoint = t.gram / (t.A - t.lead * t.lead) := by
    have h := t.mul_sqWay t.flatPoint
    rw [hpoint, mul_pow, Real.sq_sqrt (by positivity)] at h
    refine mul_left_cancel₀ hA.ne' (h.trans ?_)
    linear_combination -div_mul_cancel₀ t.gram hrest.ne'
  have hroot : 0 < √(t.gram / (t.A - t.lead * t.lead)) := by positivity
  unfold slope
  rw [hpoint, hway, mul_div_assoc, div_self hroot.ne']
  ring

/-- If they differ by no less, the difference outweighs the way all along the chord. -/
theorem abs_lt_abs_lead (hlead : t.A ≤ t.lead * t.lead) (l : ℝ) :
    |(t.A * l + t.B) / √(t.sqWay l)| < |t.lead| := by
  have hway := ht.sqWay_pos l
  rw [← sq_lt_sq, div_pow, ht.sq_sqrt_sqWay, div_lt_iff₀ hway]
  have hmul := mul_le_mul_of_nonneg_right hlead hway.le
  rw [mul_sqWay] at hmul
  linarith [ht.gram_pos]

/-! ### The least arrival -/

theorem arrival_zero_le_or_one_le (hlead : t.A ≤ t.lead * t.lead) :
    (∀ l, 0 ≤ l → t.arrival 0 ≤ t.arrival l) ∨ ∀ l ≤ 1, t.arrival 1 ≤ t.arrival l := by
  rcases le_total 0 t.lead with h | h
  · left
    intro l hl
    have habs := ht.abs_lt_abs_lead hlead 0
    rw [abs_of_nonneg h, abs_lt] at habs
    exact ht.arrival_le_of_slope_nonneg (by unfold slope; linarith) hl
  · right
    intro l hl
    have habs := ht.abs_lt_abs_lead hlead 1
    rw [abs_of_nonpos h, abs_lt] at habs
    exact ht.arrival_le_of_slope_nonpos (by unfold slope; linarith) hl

end Proper

theorem cost_ofReal (t : Chord ℝ) (l : ℝ) : t.ofReal.cost l = t.arrival l := by
  have hway : t.sqWay l = t.A * l * l + 2 * t.B * l + t.C := by
    unfold sqWay
    ring
  simp only [cost, delta, ofReal, Exact.two_eq, Exact.upper_eq, Exact.zero_eq, ← EReal.coe_mul,
    ← EReal.coe_add, ← EReal.coe_sub, Exact.sqrt_max_zero, arrival, lead, hway]

/-- The update looks at the point without slope exactly if there is one. -/
theorem Proper.stationary?_ofReal (ht : t.Proper) : t.ofReal.stationary? =
    if t.lead * t.lead < t.A then some (t.flatPoint : EReal) else none := by
  have hD : t.ofReal.D = t.gram := by
    simp only [D, ofReal, gram, EReal.coe_mul, EReal.coe_sub]
  have hdelta : t.ofReal.delta = t.lead := by
    simp only [delta, ofReal, lead, EReal.coe_sub]
  have hcond : (Scalar.lt Scalar.zero t.ofReal.A && Scalar.lt Scalar.zero t.ofReal.D &&
      Scalar.lt (t.ofReal.delta * t.ofReal.delta) t.ofReal.A) ↔ t.lead * t.lead < t.A := by
    rw [hD, hdelta, Bool.and_eq_true, Bool.and_eq_true, Exact.lt_iff, Exact.lt_iff, Exact.lt_iff,
      Exact.zero_eq, ← EReal.coe_mul]
    simp only [ofReal, EReal.coe_pos, EReal.coe_lt_coe_iff, ht.A_pos, ht.gram_pos, true_and]
  unfold stationary?
  split
  · rename_i h
    rw [if_pos (hcond.mp h), hD, hdelta]
    simp only [ofReal, ← EReal.coe_mul, ← EReal.coe_sub, ← EReal.coe_div, ← EReal.coe_neg,
      Exact.sqrt_coe, flatPoint]
  · rename_i h
    rw [if_neg (hcond.not.mp h)]

/-- The update is not above the arrival over any point of the segment. -/
theorem Proper.least_le (ht : t.Proper) (h0 : 0 ≤ l) (h1 : l ≤ 1) :
    t.ofReal.least ≤ t.arrival l := by
  obtain ⟨hzero, hone⟩ := least_le_ends (t := t.ofReal) (Exact.isNaN_eq _) (Exact.isNaN_eq _)
  rw [Exact.le_iff] at hzero hone
  have hends : ∀ a : ℝ, a = 0 ∨ a = 1 → t.arrival a ≤ t.arrival l →
      t.ofReal.least ≤ t.arrival l := by
    intro a ha hle
    refine le_trans ?_ (EReal.coe_le_coe_iff.mpr hle)
    rw [← cost_ofReal]
    rcases ha with rfl | rfl
    · exact hzero
    · exact hone
  rcases lt_or_ge (t.lead * t.lead) t.A with hlead | hlead
  · have hflat := ht.slope_flatPoint hlead
    rcases le_or_gt t.flatPoint 0 with hle | hpos
    · exact hends 0 (.inl rfl)
        (ht.arrival_le_of_slope_nonneg (hflat.symm.trans_le (ht.slope_mono hle)) h0)
    rcases le_or_gt 1 t.flatPoint with hge | hlt
    · exact hends 1 (.inr rfl)
        (ht.arrival_le_of_slope_nonpos ((ht.slope_mono hge).trans_eq hflat) h1)
    have hleast : t.ofReal.least ≤ t.ofReal.cost t.flatPoint := by
      unfold least
      rw [ht.stationary?_ofReal, if_pos hlead]
      dsimp only
      rw [if_pos (by
        rw [Bool.and_eq_true, Exact.lt_iff, Exact.lt_iff, Exact.zero_eq, Exact.one_eq]
        exact ⟨EReal.coe_pos.mpr hpos, by exact_mod_cast hlt⟩), Exact.lower_eq]
      exact min_le_right _ _
    refine hleast.trans ?_
    rw [cost_ofReal, EReal.coe_le_coe_iff]
    rcases le_total t.flatPoint l with hle | hle
    · exact ht.arrival_le_of_slope_nonneg hflat.ge hle
    · exact ht.arrival_le_of_slope_nonpos hflat.le hle
  · rcases ht.arrival_zero_le_or_one_le hlead with h | h
    · exact hends 0 (.inl rfl) (h l h0)
    · exact hends 1 (.inr rfl) (h l h1)

theorem Proper.exists_isLeast (ht : t.Proper) :
    ∃ m : ℝ, IsLeast (t.arrival '' Set.Icc 0 1) m ∧ t.ofReal.least = m := by
  obtain ⟨l, h0, h1, hl⟩ := t.ofReal.exists_least_eq
  rw [cost_ofReal] at hl
  refine ⟨t.arrival l, ⟨⟨l, ⟨h0, h1⟩, rfl⟩, ?_⟩, hl⟩
  rintro _ ⟨l', ⟨h0', h1'⟩, rfl⟩
  rw [← EReal.coe_le_coe_iff, ← hl]
  exact ht.least_le h0' h1'

end Chord

/-! ### Triangles of the plane -/

section Plane

variable {c j k : Fin 2 → ℝ} {M : Matrix (Fin 2) (Fin 2) ℝ} {uj uk : ℝ}

/-- A cell that does not lie on a line with two others is no point of the segment between them. -/
theorem sub_ne_zero_of_not_collinear (h : ¬Collinear ℝ {c, j, k}) (l : ℝ) :
    c - (l • j + (1 - l) • k) ≠ 0 := by
  intro hzero
  apply h
  rw [collinear_iff_of_mem (show k ∈ ({c, j, k} : Set (Fin 2 → ℝ)) by simp)]
  refine ⟨j - k, ?_⟩
  have hc : c = l • (j - k) +ᵥ k := by
    rw [sub_eq_zero.mp hzero, vadd_eq_add]
    module
  rintro p (rfl | rfl | rfl)
  · exact ⟨l, hc⟩
  · exact ⟨1, by simp⟩
  · exact ⟨0, by simp⟩

theorem not_collinear_of_isWedge (h : isWedge (.ofReal c) (.ofReal j) (.ofReal k)) :
    ¬Collinear ℝ {c, j, k} := by
  intro hline
  rw [collinear_iff_of_mem (show c ∈ ({c, j, k} : Set (Fin 2 → ℝ)) by simp)] at hline
  obtain ⟨v, hv⟩ := hline
  obtain ⟨a, hj⟩ := hv j (by simp)
  obtain ⟨b, hk⟩ := hv k (by simp)
  have hcross : (j - c) 0 * (k - c) 1 - (j - c) 1 * (k - c) 0 = 0 := by
    rw [hj, hk]
    simp only [vadd_eq_add, add_sub_cancel_right, Pi.smul_apply, smul_eq_mul]
    ring
  rw [isWedge_ofReal, hcross] at h
  exact absurd h (not_lt.mpr (by positivity))

/-- The chord of two neighbours, in real numbers. -/
def chord (c j k : Fin 2 → ℝ) (uj uk : ℝ) (M : Matrix (Fin 2) (Fin 2) ℝ) : Chord ℝ where
  A := (k - j) ⬝ᵥ M *ᵥ (k - j)
  B := (k - j) ⬝ᵥ M *ᵥ (c - k)
  C := (c - k) ⬝ᵥ M *ᵥ (c - k)
  uj := uj
  uk := uk

theorem of_ofReal (c j k : Fin 2 → ℝ) (uj uk : ℝ) (M : Matrix (Fin 2) (Fin 2) ℝ) :
    Chord.of (.ofReal c) (.ofReal j) uj (.ofReal k) uk (.ofReal M) =
      (chord c j k uj uk M).ofReal := by
  simp only [Chord.of, Chord.ofReal, chord, Exact.ofReal_sub, Exact.form_ofReal]

theorem arrival_chord (hM : M.IsHermitian) (c j k : Fin 2 → ℝ) (uj uk l : ℝ) :
    (chord c j k uj uk M).arrival l = l * uj + (1 - l) * uk +
      √((c - (l • j + (1 - l) • k)) ⬝ᵥ M *ᵥ (c - (l • j + (1 - l) • k))) := by
  rw [← EReal.coe_eq_coe_iff, ← Chord.cost_ofReal, ← of_ofReal, cost_of hM]

/-- The chord of a triangle is proper: the cell is no point of its line. -/
theorem proper_chord (hM : M.PosDef) (h : ¬Collinear ℝ {c, j, k}) (uj uk : ℝ) :
    (chord c j k uj uk M).Proper := by
  have hA : 0 < (chord c j k uj uk M).A := by
    refine hM.dotProduct_mulVec_pos (x := k - j) (sub_ne_zero.mpr ?_)
    rintro rfl
    exact h (by simpa using collinear_pair ℝ c k)
  have hway : ∀ l, 0 < (chord c j k uj uk M).sqWay l := by
    intro l
    have hsqrt : √((chord c j k uj uk M).sqWay l) =
        √((c - (l • j + (1 - l) • k)) ⬝ᵥ M *ᵥ (c - (l • j + (1 - l) • k))) := by
      have harrival : uk + l * (uj - uk) + √((chord c j k uj uk M).sqWay l) = _ :=
        arrival_chord hM.isHermitian c j k uj uk l
      linarith
    rw [← Real.sqrt_pos, hsqrt, Real.sqrt_pos]
    exact hM.dotProduct_mulVec_pos (sub_ne_zero_of_not_collinear h l)
  -- at the point where the square of the way is least, it is the determinant over `A`
  have hmul := mul_pos hA (hway (-(chord c j k uj uk M).B / (chord c j k uj uk M).A))
  rw [Chord.mul_sqWay, mul_div_cancel₀ _ hA.ne', neg_add_cancel] at hmul
  exact ⟨hA, by simpa using hmul⟩

/-- In exact arithmetic a triangle update is the least arrival over the segment, raised to the later
of the two times. Wedges are triangles. -/
theorem triangle_eq_clamped_least (hM : M.PosDef) (uj uk : ℝ) :
    (isWedge (.ofReal c) (.ofReal j) (.ofReal k) → ¬Collinear ℝ {c, j, k}) ∧
      (¬Collinear ℝ {c, j, k} → ∃ m : ℝ,
        IsLeast ((fun l : ℝ => l * uj + (1 - l) * uk +
          √((c - (l • j + (1 - l) • k)) ⬝ᵥ M *ᵥ (c - (l • j + (1 - l) • k)))) '' Set.Icc 0 1) m ∧
        triangle (.ofReal c) (.ofReal j) uj (.ofReal k) uk (.ofReal M) =
          ((max (max m uj) uk : ℝ) : EReal)) := by
  refine ⟨not_collinear_of_isWedge, fun h => ?_⟩
  obtain ⟨m, hm, hleast⟩ := (proper_chord hM h uj uk).exists_isLeast
  refine ⟨m, ?_, ?_⟩
  · simpa only [← arrival_chord hM.isHermitian] using hm
  · rw [triangle, of_ofReal, Chord.value, hleast, Exact.upper_eq, Exact.upper_eq]
    simp only [Chord.ofReal, chord, EReal.coe_strictMono.monotone.map_max]

theorem triangle_eq_clamped_least_sample :
    isWedge (.ofReal 0) (.ofReal ![1, 0]) (.ofReal ![0, 1]) ∧
      triangle (.ofReal 0) (.ofReal ![1, 0]) ((0 : ℝ) : EReal) (.ofReal ![0, 1]) ((0 : ℝ) : EReal)
        (.ofReal 1) = ((√(1 / 2) : ℝ) : EReal) := by
  have hwedge : isWedge (.ofReal 0) (.ofReal ![1, 0]) (.ofReal ![0, 1]) := by
    rw [isWedge_ofReal]
    norm_num
  obtain ⟨hcollinear, hvalue⟩ := triangle_eq_clamped_least (c := 0) (j := ![1, 0]) (k := ![0, 1])
    (M := 1) Matrix.PosDef.one 0 0
  obtain ⟨m, hm, htriangle⟩ := hvalue (hcollinear hwedge)
  have hway : ∀ l : ℝ, (0 - (l • ![1, 0] + (1 - l) • ![0, 1])) ⬝ᵥ
      (1 : Matrix (Fin 2) (Fin 2) ℝ) *ᵥ (0 - (l • ![1, 0] + (1 - l) • ![0, 1])) =
        2 * (l - 1 / 2) ^ 2 + 1 / 2 := by
    intro l
    simp [dotProduct, Fin.sum_univ_two]
    ring
  simp only [hway, mul_zero, zero_add] at hm
  have hhalf : m = √(1 / 2) := by
    refine hm.unique ⟨⟨1 / 2, by norm_num, by norm_num⟩, ?_⟩
    rintro _ ⟨l, -, rfl⟩
    exact Real.sqrt_le_sqrt (by linarith [sq_nonneg (l - 1 / 2)])
  refine ⟨hwedge, ?_⟩
  rw [htriangle, hhalf, max_eq_left (Real.sqrt_nonneg _), max_eq_left (Real.sqrt_nonneg _)]

end Plane

end Eikonal.Stencil
