import Mathlib
import Eikonal.FastMarching.Update
import Eikonal.Proofs.Scalar.Exact

/-! The update in exact arithmetic. The steepness of a node at time `t` is what the upwind equation
says of it: the sum of the squares of `(t - v) / d` over the axes, where `v` is the least value
beside the node and only positive differences count. It grows with `t`, and the arrival that the
update computes is the last time at which it is not above the square of the slowness. -/

namespace Eikonal.FastMarching

/-- How far `t` lies behind `a`; zero if it does not. -/
noncomputable def lag (t : ℝ) (a : EReal) : ℝ := t - (min a t).toReal

/-- The square of the upwind gradient at a node with time `t` and the least values `tx` and `ty`
beside it. -/
noncomputable def steepness (dx dy t : ℝ) (tx ty : EReal) : ℝ :=
  (lag t tx / dx) ^ 2 + (lag t ty / dy) ^ 2

section Lag

variable {t u x : ℝ} {a b : EReal}

theorem min_coe (x t : ℝ) : min (x : EReal) t = ((min x t : ℝ) : EReal) :=
  (EReal.coe_strictMono.monotone.map_min).symm

@[simp] theorem lag_coe (t x : ℝ) : lag t x = max (t - x) 0 := by
  rw [lag, min_coe, EReal.toReal_coe]
  rcases le_total x t with h | h
  · rw [min_eq_left h, max_eq_left (by linarith)]
  · rw [min_eq_right h, max_eq_right (by linarith), sub_self]

@[simp] theorem lag_top (t : ℝ) : lag t ⊤ = 0 := by
  simp [lag]

theorem lag_congr (h : min a t = min b t) : lag t a = lag t b := by
  rw [lag, lag, h]

/-- Values at or above `t` do not count. -/
theorem lag_eq_zero (h : t ≤ a) : lag t a = 0 := by
  rw [lag, min_eq_right h, EReal.toReal_coe, sub_self]

theorem lag_nonneg (ha : a ≠ ⊥) : 0 ≤ lag t a := by
  induction a with
  | bot => exact absurd rfl ha
  | coe x => simp
  | top => simp

theorem lag_mono (ha : a ≠ ⊥) (h : t ≤ u) : lag t a ≤ lag u a := by
  induction a with
  | bot => exact absurd rfl ha
  | coe x =>
    rw [lag_coe, lag_coe]
    exact max_le_max (by linarith) le_rfl
  | top => simp

theorem lag_anti (ha : a ≠ ⊥) (h : a ≤ b) : lag t b ≤ lag t a := by
  have hmin : min a t ≠ ⊥ := by simp [ha]
  exact sub_le_sub_left (EReal.toReal_le_toReal (min_le_min_right _ h) hmin (by simp)) _

/-- A lag grows as fast as the time, once it is positive. -/
theorem lag_lt (ha : 0 < lag t a) (hb : a ≠ ⊥) (h : t < u) : lag t a < lag u a := by
  induction a with
  | bot => exact absurd rfl hb
  | coe x =>
    rw [lag_coe] at ha
    have hpos : 0 < t - x := by simpa using ha
    rw [lag_coe, lag_coe, max_eq_left hpos.le, max_eq_left (by linarith)]
    linarith
  | top => simp at ha

theorem coe_lag (ha : a ≠ ⊥) : ((lag t a : ℝ) : EReal) = max ((t : EReal) - a) 0 := by
  induction a with
  | bot => exact absurd rfl ha
  | coe x =>
    rw [lag_coe, EReal.coe_strictMono.monotone.map_max, EReal.coe_sub, EReal.coe_zero]
  | top => simp

theorem continuous_lag (ha : a ≠ ⊥) : Continuous fun t => lag t a := by
  induction a with
  | bot => exact absurd rfl ha
  | coe x =>
    simp only [lag_coe]
    fun_prop
  | top =>
    simp only [lag_top]
    exact continuous_const

end Lag

section Steepness

variable {dx dy s t u x y : ℝ} {tx ty tx' ty' : EReal}

theorem steepness_mono (hdx : 0 < dx) (hdy : 0 < dy) (hx : tx ≠ ⊥) (hy : ty ≠ ⊥) (h : t ≤ u) :
    steepness dx dy t tx ty ≤ steepness dx dy u tx ty := by
  have h1 := div_nonneg (lag_nonneg (t := t) hx) hdx.le
  have h2 := div_nonneg (lag_nonneg (t := t) hy) hdy.le
  unfold steepness
  gcongr
  · exact lag_mono hx h
  · exact lag_mono hy h

/-- Earlier values beside a node make it steeper. -/
theorem steepness_anti (hdx : 0 < dx) (hdy : 0 < dy) (hx : tx' ≠ ⊥) (hy : ty' ≠ ⊥)
    (hx' : tx' ≤ tx) (hy' : ty' ≤ ty) : steepness dx dy t tx ty ≤ steepness dx dy t tx' ty' := by
  have h1 := div_nonneg (lag_nonneg (t := t) (ne_bot_of_le_ne_bot hx hx')) hdx.le
  have h2 := div_nonneg (lag_nonneg (t := t) (ne_bot_of_le_ne_bot hy hy')) hdy.le
  unfold steepness
  gcongr
  · exact lag_anti hx hx'
  · exact lag_anti hy hy'

theorem steepness_congr (hx : min tx t = min tx' t) (hy : min ty t = min ty' t) :
    steepness dx dy t tx ty = steepness dx dy t tx' ty' := by
  rw [steepness, steepness, lag_congr hx, lag_congr hy]

theorem steepness_eq_zero (hx : t ≤ tx) (hy : t ≤ ty) : steepness dx dy t tx ty = 0 := by
  rw [steepness, lag_eq_zero hx, lag_eq_zero hy]
  simp

/-- Where a node is steep at all, it grows steeper with time. -/
theorem steepness_lt (hdx : 0 < dx) (hdy : 0 < dy) (hx : tx ≠ ⊥) (hy : ty ≠ ⊥)
    (hpos : 0 < steepness dx dy t tx ty) (h : t < u) :
    steepness dx dy t tx ty < steepness dx dy u tx ty := by
  have hx0 := div_nonneg (lag_nonneg (t := t) hx) hdx.le
  have hy0 := div_nonneg (lag_nonneg (t := t) hy) hdy.le
  have hxu := div_le_div_of_nonneg_right (lag_mono hx h.le) hdx.le
  have hyu := div_le_div_of_nonneg_right (lag_mono hy h.le) hdy.le
  unfold steepness at *
  rcases (lag_nonneg (t := t) hx).eq_or_lt with h0 | h0
  · have hy1 : 0 < lag t ty := by
      rcases (lag_nonneg (t := t) hy).eq_or_lt with h1 | h1
      · simp [← h0, ← h1] at hpos
      · exact h1
    have := div_lt_div_of_pos_right (lag_lt hy1 hy h) hdy
    exact add_lt_add_of_le_of_lt (pow_le_pow_left₀ hx0 hxu 2)
      (pow_lt_pow_left₀ this hy0 two_ne_zero)
  · have := div_lt_div_of_pos_right (lag_lt h0 hx h) hdx
    exact add_lt_add_of_lt_of_le (pow_lt_pow_left₀ this hx0 two_ne_zero)
      (pow_le_pow_left₀ hy0 hyu 2)

/-- A node that is late enough after a value beside it is too steep. -/
theorem sq_lt_steepness (hdx : 0 < dx) (hs : 0 ≤ s) (hx : tx ≤ x) (hbot : tx ≠ ⊥) :
    s ^ 2 < steepness dx dy (x + (s + 1) * dx) tx ty := by
  have hlag : (s + 1) * dx ≤ lag (x + (s + 1) * dx) tx := by
    refine le_trans ?_ (lag_anti hbot hx)
    rw [lag_coe, add_sub_cancel_left]
    exact le_max_left _ _
  have hone : s + 1 ≤ lag (x + (s + 1) * dx) tx / dx := by rwa [le_div_iff₀ hdx]
  have hsq := pow_le_pow_left₀ (by linarith) hone 2
  have hy := sq_nonneg (lag (x + (s + 1) * dx) ty / dy)
  unfold steepness
  nlinarith

theorem continuous_steepness (hx : tx ≠ ⊥) (hy : ty ≠ ⊥) :
    Continuous fun t => steepness dx dy t tx ty := by
  have h1 := continuous_lag hx
  have h2 := continuous_lag hy
  unfold steepness
  fun_prop

/-- The last time at which a node is not too steep is a time at which the upwind equation holds. -/
theorem steepness_eq_of_le_iff (hx : tx ≠ ⊥) (hy : ty ≠ ⊥)
    (h : ∀ u, u ≤ t ↔ steepness dx dy u tx ty ≤ s ^ 2) : steepness dx dy t tx ty = s ^ 2 := by
  refine le_antisymm ((h t).mp le_rfl) ?_
  have hafter : ∀ u ∈ Set.Ioi t, s ^ 2 ≤ steepness dx dy u tx ty := by
    intro u hu
    have := (h u).not.mp (not_le.mpr hu)
    exact (not_le.mp this).le
  have htendsto : Filter.Tendsto (fun u => steepness dx dy u tx ty) (nhdsWithin t (Set.Ioi t))
      (nhds (steepness dx dy t tx ty)) :=
    ((continuous_steepness hx hy).tendsto t).mono_left nhdsWithin_le_nhds
  exact ge_of_tendsto htendsto (Filter.eventually_of_mem self_mem_nhdsWithin hafter)

/-! ### One axis -/

theorem sq_lag_le_iff {d : ℝ} (hd : 0 < d) (hs : 0 ≤ s) :
    (lag t x / d) ^ 2 ≤ s ^ 2 ↔ t ≤ x + s * d := by
  rw [sq_le_sq₀ (div_nonneg (lag_nonneg (EReal.coe_ne_bot x)) hd.le) hs, div_le_iff₀ hd, lag_coe,
    max_le_iff, and_iff_left (by positivity), sub_le_iff_le_add']

/-! ### Both axes -/

/-- The coefficients of the upwind equation, as a quadratic one in the time, and its larger root. -/
noncomputable def leading (dx dy : ℝ) : ℝ := 1 / (dx * dx) + 1 / (dy * dy)

noncomputable def linear (dx dy x y : ℝ) : ℝ := -2 * (x / (dx * dx) + y / (dy * dy))

noncomputable def discriminant (dx dy s x y : ℝ) : ℝ :=
  linear dx dy x y * linear dx dy x y -
    (4 : ℕ) * leading dx dy * (x * x / (dx * dx) + y * y / (dy * dy) - s * s)

noncomputable def root (dx dy s x y : ℝ) : ℝ :=
  (-linear dx dy x y + √(discriminant dx dy s x y)) / (2 * leading dx dy)

theorem leading_pos (hdx : 0 < dx) (hdy : 0 < dy) : 0 < leading dx dy := by
  unfold leading
  positivity

theorem sq_eq_discriminant_add (hdx : 0 < dx) (hdy : 0 < dy) :
    (2 * leading dx dy * t + linear dx dy x y) ^ 2 = discriminant dx dy s x y +
      4 * leading dx dy * (((t - x) / dx) ^ 2 + ((t - y) / dy) ^ 2 - s ^ 2) := by
  unfold discriminant linear leading
  field_simp
  ring

theorem root_eq (hdx : 0 < dx) (hdy : 0 < dy) :
    2 * leading dx dy * root dx dy s x y + linear dx dy x y = √(discriminant dx dy s x y) := by
  have := leading_pos hdx hdy
  unfold root
  field_simp
  ring

theorem root_solves (hdx : 0 < dx) (hdy : 0 < dy) (hd : 0 ≤ discriminant dx dy s x y) :
    ((root dx dy s x y - x) / dx) ^ 2 + ((root dx dy s x y - y) / dy) ^ 2 = s ^ 2 := by
  have hsq := sq_eq_discriminant_add (s := s) (t := root dx dy s x y) (x := x) (y := y) hdx hdy
  rw [root_eq hdx hdy, Real.sq_sqrt hd, left_eq_add] at hsq
  have := (mul_eq_zero.mp hsq).resolve_left (by have := leading_pos hdx hdy; positivity)
  linarith

/-- A time that is not too late for the equation is not after the root, and there is one. -/
theorem le_root (hdx : 0 < dx) (hdy : 0 < dy)
    (ht : ((t - x) / dx) ^ 2 + ((t - y) / dy) ^ 2 ≤ s ^ 2) :
    0 ≤ discriminant dx dy s x y ∧ t ≤ root dx dy s x y := by
  have ha := leading_pos hdx hdy
  have hsq := sq_eq_discriminant_add (s := s) (t := t) (x := x) (y := y) hdx hdy
  have hle : (2 * leading dx dy * t + linear dx dy x y) ^ 2 ≤ discriminant dx dy s x y := by
    rw [hsq]
    have := mul_nonneg (show 0 ≤ 4 * leading dx dy by positivity) (sub_nonneg.mpr ht)
    linarith
  refine ⟨(sq_nonneg _).trans hle, ?_⟩
  have hroot : 2 * leading dx dy * t + linear dx dy x y ≤
      2 * leading dx dy * root dx dy s x y + linear dx dy x y := by
    rw [root_eq hdx hdy]
    exact Real.le_sqrt_of_sq_le hle
  exact le_of_mul_le_mul_left (by linarith) (show 0 < 2 * leading dx dy by positivity)

noncomputable def arrivalOfBoth (dx dy s x y : ℝ) : ℝ :=
  if 0 ≤ discriminant dx dy s x y ∧ max x y ≤ root dx dy s x y then root dx dy s x y
  else min (x + s * dx) (y + s * dy)

theorem steepness_comm (x y : EReal) : steepness dx dy t x y = steepness dy dx t y x := by
  rw [steepness, steepness, add_comm]

/-- Where the root does not count, the axis with the earlier value decides alone: the other value
comes after the arrival. -/
theorem le_oneSided_iff (hdx : 0 < dx) (hdy : 0 < dy) (hs : 0 ≤ s) (hxy : x ≤ y)
    (hroot : ¬(0 ≤ discriminant dx dy s x y ∧ y ≤ root dx dy s x y)) :
    t ≤ min (x + s * dx) (y + s * dy) ↔ steepness dx dy t x y ≤ s ^ 2 := by
  have hlt : x + s * dx < y := by
    by_contra hle
    refine hroot (le_root hdx hdy ?_)
    have h1 := (sq_lag_le_iff (x := x) hdx hs).mpr (not_lt.mp hle)
    rw [lag_coe, max_eq_left (by linarith)] at h1
    simpa using h1
  have hy : 0 ≤ s * dy := by positivity
  rw [min_eq_left (by linarith), ← sq_lag_le_iff hdx hs]
  unfold steepness
  constructor
  · intro h
    have ht := (sq_lag_le_iff hdx hs).mp h
    rw [lag_eq_zero (t := t) (a := y) (by exact_mod_cast (by linarith : t ≤ y))]
    simpa using h
  · intro h
    have := sq_nonneg (lag t y / dy)
    linarith

theorem discriminant_comm : discriminant dx dy s x y = discriminant dy dx s y x := by
  unfold discriminant linear leading
  ring

theorem root_comm : root dx dy s x y = root dy dx s y x := by
  unfold root
  rw [discriminant_comm]
  unfold linear leading
  ring_nf

/-- The arrival from both axes is the last time at which the node is not too steep. -/
theorem le_arrivalOfBoth_iff (hdx : 0 < dx) (hdy : 0 < dy) (hs : 0 ≤ s) :
    t ≤ arrivalOfBoth dx dy s x y ↔ steepness dx dy t x y ≤ s ^ 2 := by
  have hx := EReal.coe_ne_bot x
  have hy := EReal.coe_ne_bot y
  unfold arrivalOfBoth
  split
  · rename_i hroot
    obtain ⟨hd, hmax⟩ := hroot
    obtain ⟨hxr, hyr⟩ := max_le_iff.mp hmax
    have heq : ∀ u, root dx dy s x y ≤ u →
        steepness dx dy u x y = ((u - x) / dx) ^ 2 + ((u - y) / dy) ^ 2 := by
      intro u hu
      rw [steepness, lag_coe, lag_coe, max_eq_left (by linarith), max_eq_left (by linarith)]
    have hsolves := root_solves hdx hdy hd
    rw [← heq _ le_rfl] at hsolves
    constructor
    · intro ht
      exact (steepness_mono hdx hdy hx hy ht).trans hsolves.le
    · intro ht
      by_contra hlt
      rw [not_le] at hlt
      rw [heq t hlt.le] at ht
      exact absurd (le_root hdx hdy ht).2 (not_le.mpr hlt)
  · rename_i hroot
    rcases le_total x y with hxy | hxy
    · rw [max_eq_right hxy] at hroot
      exact le_oneSided_iff hdx hdy hs hxy hroot
    · rw [max_eq_left hxy, discriminant_comm, root_comm] at hroot
      rw [min_comm, steepness_comm]
      exact le_oneSided_iff hdy hdx hs hxy hroot

end Steepness

/-! ### The update -/

variable {dx dy s : ℝ}

theorem square_coe {d : ℝ} (hd : 0 < d) : square (d : EReal) = .ok ((d * d : ℝ) : EReal) := by
  have hsq : Scalar.sq (d : EReal) = ((d * d : ℝ) : EReal) := (EReal.coe_mul d d).symm
  have hfin : Scalar.isFinite (((d * d : ℝ) : EReal)) :=
    Exact.isFinite_iff.mpr ⟨EReal.coe_ne_top _, EReal.coe_ne_bot _⟩
  have hne : ¬Scalar.eq (((d * d : ℝ) : EReal)) Scalar.zero := by
    rw [Exact.eq_iff, Exact.zero_eq, EReal.coe_eq_zero]
    exact (mul_pos hd hd).ne'
  unfold square
  dsimp only
  rw [hsq, hfin, Bool.not_true, Bool.and_false, if_neg Bool.false_ne_true, if_neg hne]

theorem oneSided_coe (x y : ℝ) : oneSided ⟨(dx : EReal), (dy : EReal)⟩ (s : EReal) x y =
    ((min (x + s * dx) (y + s * dy) : ℝ) : EReal) := by
  unfold oneSided
  dsimp only
  rw [Exact.lower_eq, ← EReal.coe_mul, ← EReal.coe_mul, ← EReal.coe_add, ← EReal.coe_add, min_coe]

theorem twoSided_coe (x y : ℝ) :
    twoSided ⟨(dx : EReal), (dy : EReal)⟩ ((dx * dx : ℝ) : EReal) ((dy * dy : ℝ) : EReal)
      (s : EReal) x y = ((arrivalOfBoth dx dy s x y : ℝ) : EReal) := by
  have hfour : (Scalar.natCast 4 : EReal) = (((4 : ℕ) : ℝ) : EReal) := rfl
  have ha : (Scalar.one : EReal) / ((dx * dx : ℝ) : EReal) + Scalar.one / ((dy * dy : ℝ) : EReal) =
      ((leading dx dy : ℝ) : EReal) := by
    rw [Exact.one_eq, ← EReal.coe_one, ← EReal.coe_div, ← EReal.coe_div, ← EReal.coe_add, leading]
  have hb : -(Scalar.two : EReal) * (x / ((dx * dx : ℝ) : EReal) + y / ((dy * dy : ℝ) : EReal)) =
      ((linear dx dy x y : ℝ) : EReal) := by
    rw [Exact.two_eq, ← EReal.coe_div, ← EReal.coe_div, ← EReal.coe_add, ← EReal.coe_neg,
      ← EReal.coe_mul, linear]
  have hd : Scalar.sq ((linear dx dy x y : ℝ) : EReal) - Scalar.natCast 4 *
      ((leading dx dy : ℝ) : EReal) * (Scalar.sq (x : EReal) / ((dx * dx : ℝ) : EReal) +
        Scalar.sq (y : EReal) / ((dy * dy : ℝ) : EReal) - Scalar.sq (s : EReal)) =
      ((discriminant dx dy s x y : ℝ) : EReal) := by
    simp only [hfour, Scalar.sq, ← EReal.coe_mul, ← EReal.coe_div, ← EReal.coe_add,
      ← EReal.coe_sub, discriminant]
  have hr : (-((linear dx dy x y : ℝ) : EReal) +
      Scalar.sqrt ((discriminant dx dy s x y : ℝ) : EReal)) /
        (Scalar.two * ((leading dx dy : ℝ) : EReal)) = ((root dx dy s x y : ℝ) : EReal) := by
    rw [Exact.sqrt_coe, Exact.two_eq, ← EReal.coe_neg, ← EReal.coe_add, ← EReal.coe_mul,
      ← EReal.coe_div, root]
  unfold twoSided
  dsimp only
  rw [ha, hb, hd, hr, oneSided_coe]
  have hcond : (Scalar.le Scalar.zero ((discriminant dx dy s x y : ℝ) : EReal) &&
      Scalar.le (Scalar.upper (x : EReal) y) ((root dx dy s x y : ℝ) : EReal)) ↔
        0 ≤ discriminant dx dy s x y ∧ max x y ≤ root dx dy s x y := by
    rw [Bool.and_eq_true, Exact.le_iff, Exact.le_iff, Exact.upper_eq, Exact.zero_eq,
      ← EReal.coe_strictMono.monotone.map_max, EReal.coe_le_coe_iff, EReal.coe_nonneg]
  unfold arrivalOfBoth
  split
  · rename_i h
    rw [if_pos (hcond.mp h)]
  · rename_i h
    rw [if_neg (hcond.not.mp h)]

/-- The update gives the last time at which the node is not too steep; with no value beside the node
that is any time. -/
theorem exists_arrival? (hdx : 0 < dx) (hdy : 0 < dy) (hs : 0 ≤ s) {tx ty : EReal} (hx : tx ≠ ⊥)
    (hy : ty ≠ ⊥) : ∃ o, arrival? ⟨(dx : EReal), (dy : EReal)⟩ (s : EReal) tx ty = .ok o ∧
      ∀ t : ℝ, (t : EReal) ≤ o.getD ⊤ ↔ steepness dx dy t tx ty ≤ s ^ 2 := by
  have hlt : ∀ x : ℝ, Scalar.lt (x : EReal) Scalar.inf := fun x =>
    Exact.lt_iff.mpr (EReal.coe_lt_top x)
  have htop : ¬Scalar.lt (⊤ : EReal) Scalar.inf := by
    rw [Exact.lt_iff]
    exact lt_irrefl _
  have hone : ∀ {d x t : ℝ}, 0 < d → ((t : EReal) ≤ (x : EReal) + (s : EReal) * (d : EReal) ↔
      (lag t x / d) ^ 2 ≤ s ^ 2) := by
    intro d x t hd
    rw [sq_lag_le_iff hd hs, ← EReal.coe_mul, ← EReal.coe_add, EReal.coe_le_coe_iff]
  unfold arrival?
  induction tx with
  | bot => exact absurd rfl hx
  | coe x =>
    rw [if_pos (hlt x)]
    induction ty with
    | bot => exact absurd rfl hy
    | coe y =>
      rw [if_pos (hlt y), square_coe hdx, square_coe hdy]
      refine ⟨_, rfl, fun t => ?_⟩
      rw [Option.getD_some, twoSided_coe, EReal.coe_le_coe_iff, le_arrivalOfBoth_iff hdx hdy hs]
    | top =>
      rw [if_neg htop]
      refine ⟨_, rfl, fun t => ?_⟩
      rw [Option.getD_some, hone hdx]
      simp [steepness]
  | top =>
    rw [if_neg htop]
    induction ty with
    | bot => exact absurd rfl hy
    | coe y =>
      rw [if_pos (hlt y)]
      refine ⟨_, rfl, fun t => ?_⟩
      rw [Option.getD_some, hone hdy]
      simp [steepness]
    | top =>
      rw [if_neg htop]
      refine ⟨_, rfl, fun t => ?_⟩
      simp [steepness, sq_nonneg]

end Eikonal.FastMarching
