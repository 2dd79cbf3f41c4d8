import Eikonal.Binary64.Decimal
import Mathlib.Algebra.Order.Ring.Nat
import Mathlib.Tactic.Positivity
import Mathlib.Tactic.Ring

/-! Decimals and binary64. The code that a quotient is rounded to depends on the quotient only, not
on the fraction that stands for it, and the quotient of a finite code is rounded to this code. So
zeros may be moved between the digits of a decimal and its exponent, and the shortest decimal of a
number reads back as the number, also where no decimal of seventeen digits is found. -/

namespace Eikonal.Binary64

variable {num den k m n s c d : Nat} {e : Int}

/-! ### Rounding a quotient -/

theorem roundDiv_mul_right (hk : 0 < k) : roundDiv (num * k) (den * k) = roundDiv num den := by
  unfold roundDiv
  dsimp only
  rw [Nat.mul_div_mul_right _ _ hk, Nat.mul_mod_mul_right, ← Nat.mul_assoc]
  simp only [Nat.mul_lt_mul_right hk]

theorem roundDiv_mul_self (hd : 0 < den) : roundDiv (n * den) den = n := by
  unfold roundDiv
  rw [Nat.mul_div_cancel _ hd, Nat.mul_mod_left]
  simp [hd]

/-- The finite numbers are multiples of `1 / grain`. -/
@[irreducible] def grain : Nat := pow2 1074

theorem pow2_eq_grain : pow2 1074 = grain := by
  unfold grain
  rfl

theorem pow2_eq (n : Nat) : pow2 n = 2 ^ n := rfl

theorem pow10_eq (n : Nat) : pow10 n = 10 ^ n := rfl

/-- The exponent of `grain` as a variable, since the power is too large to be computed. -/
theorem exists_grain : ∃ p, p = 1074 ∧ grain = 2 ^ p := by
  refine ⟨_, rfl, ?_⟩
  unfold grain
  exact pow2_eq _

theorem grain_pos : 0 < grain := by
  obtain ⟨p, -, hp⟩ := exists_grain
  rw [hp]
  positivity

/-- The place of the last bit of a rounded quotient: the least one with no more than 53 bits from it
on. -/
def IsLastPlace (num den s : Nat) : Prop :=
  num * grain < den * 2 ^ (s + 53) ∧ ∀ t < s, den * 2 ^ (t + 53) ≤ num * grain

theorem IsLastPlace.unique {s' : Nat} (h : IsLastPlace num den s) (h' : IsLastPlace num den s') :
    s = s' := by
  rcases Nat.lt_trichotomy s s' with hlt | heq | hgt
  · exact absurd h.1 (Nat.not_lt.mpr (h'.2 s hlt))
  · exact heq
  · exact absurd h'.1 (Nat.not_lt.mpr (h.2 s' hgt))

theorem IsLastPlace.mul_right (h : IsLastPlace num den s) (hk : 0 < k) :
    IsLastPlace (num * k) (den * k) s := by
  have hcomm : ∀ a b : Nat, a * k * b = a * b * k := fun a b => Nat.mul_right_comm a k b
  refine ⟨?_, fun t ht => ?_⟩
  · rw [hcomm, hcomm]
    exact Nat.mul_lt_mul_of_pos_right h.1 hk
  · rw [hcomm, hcomm]
    exact Nat.mul_le_mul_right k (h.2 t ht)

/-- The place that the rounding guesses from the lengths of both numbers, or the one above it. -/
theorem isLastPlace_guess (hn : num ≠ 0) (hd : den ≠ 0) (hs :
    s = ((num.log2 : Int) - den.log2 - 53 + 1074).toNat) :
    IsLastPlace num den (if num * grain < den * 2 ^ (s + 53) then s else s + 1) := by
  obtain ⟨p, hp, hgrain⟩ := exists_grain
  have hnlow := Nat.log2_self_le hn
  have hnhigh : num < 2 ^ (num.log2 + 1) := Nat.lt_log2_self
  have hdlow := Nat.log2_self_le hd
  have hdhigh : den < 2 ^ (den.log2 + 1) := Nat.lt_log2_self
  -- below the guess there are too many bits
  have hbelow : ∀ t < s, den * 2 ^ (t + 53) ≤ num * grain := by
    intro t ht
    calc den * 2 ^ (t + 53) ≤ 2 ^ (den.log2 + 1) * 2 ^ (t + 53) :=
          Nat.mul_le_mul_right _ hdhigh.le
      _ = 2 ^ (den.log2 + 1 + (t + 53)) := (pow_add _ _ _).symm
      _ ≤ 2 ^ (num.log2 + p) := Nat.pow_le_pow_right (by decide) (by omega)
      _ = 2 ^ num.log2 * grain := by rw [pow_add, hgrain]
      _ ≤ num * grain := Nat.mul_le_mul_right _ hnlow
  have habove : num * grain < den * 2 ^ (s + 1 + 53) := by
    calc num * grain < 2 ^ (num.log2 + 1) * grain := Nat.mul_lt_mul_of_pos_right hnhigh grain_pos
      _ = 2 ^ (num.log2 + 1 + p) := by rw [hgrain, ← pow_add]
      _ ≤ 2 ^ (den.log2 + (s + 1 + 53)) := Nat.pow_le_pow_right (by decide) (by omega)
      _ = 2 ^ den.log2 * 2 ^ (s + 1 + 53) := pow_add _ _ _
      _ ≤ den * 2 ^ (s + 1 + 53) := Nat.mul_le_mul_right _ hdlow
  split
  · rename_i h
    exact ⟨h, hbelow⟩
  · rename_i h
    refine ⟨habove, fun t ht => ?_⟩
    rcases Nat.lt_succ_iff_lt_or_eq.mp ht with hlt | rfl
    · exact hbelow t hlt
    · exact Nat.not_lt.mp h

theorem codeOfRatio_eq (hn : num ≠ 0) (hd : den ≠ 0) (hs : IsLastPlace num den s) :
    codeOfRatio num den = min (s * 2 ^ 52 + roundDiv (num * grain) (den * 2 ^ s)) infCode := by
  rw [hs.unique (isLastPlace_guess hn hd rfl), codeOfRatio, if_neg hn, pow2_eq_grain]
  simp only [decide_eq_true_eq]
  rfl

/-- Only the quotient counts, not the fraction. -/
theorem codeOfRatio_mul_right (hd : den ≠ 0) (hk : 0 < k) :
    codeOfRatio (num * k) (den * k) = codeOfRatio num den := by
  by_cases hn : num = 0
  · rw [hn, Nat.zero_mul, codeOfRatio, codeOfRatio, if_pos rfl, if_pos rfl]
  · have hs := isLastPlace_guess hn hd rfl
    have hk' : k ≠ 0 := Nat.pos_iff_ne_zero.mp hk
    rw [codeOfRatio_eq hn hd hs,
      codeOfRatio_eq (Nat.mul_ne_zero hn hk') (Nat.mul_ne_zero hd hk') (hs.mul_right hk),
      Nat.mul_right_comm num, Nat.mul_right_comm den, roundDiv_mul_right hk]

theorem codeOfRatio_congr {num' den' : Nat} (hd : den ≠ 0) (hd' : den' ≠ 0)
    (h : num * den' = num' * den) : codeOfRatio num den = codeOfRatio num' den' := by
  rw [← codeOfRatio_mul_right hd (Nat.pos_of_ne_zero hd'), h, Nat.mul_comm den,
    codeOfRatio_mul_right hd' (Nat.pos_of_ne_zero hd)]

/-! ### The quotient of a code -/

theorem mantissa_lt (c : Nat) : mantissa c < 2 ^ 53 := by
  unfold mantissa
  have : c % pow2 52 < 2 ^ 52 := Nat.mod_lt _ (by decide)
  split
  · rename_i h
    exact Nat.lt_trans h (by decide)
  · show 2 ^ 52 + c % pow2 52 < _
    omega

theorem mantissa_pos (hc : c ≠ 0) : 0 < mantissa c := by
  unfold mantissa
  split
  · exact Nat.pos_of_ne_zero hc
  · exact Nat.add_pos_left (by decide) _

/-- A finite code is put together from its factor and its place. -/
theorem shift_mul_add_mantissa (c : Nat) : shift c * 2 ^ 52 + mantissa c = c := by
  unfold shift mantissa
  rw [show pow2 52 = 2 ^ 52 from rfl]
  have hdiv := Nat.div_add_mod c (2 ^ 52)
  split
  · rename_i h
    rw [Nat.div_eq_of_lt h]
    simp
  · rename_i h
    have hpos : 0 < c / 2 ^ 52 := Nat.div_pos (by omega) (by decide)
    omega

/-- Above the least place the factor has all its 53 bits. -/
theorem le_mantissa (h : 0 < shift c) : 2 ^ 52 ≤ mantissa c := by
  unfold shift at h
  unfold mantissa
  split
  · rename_i hc
    rw [Nat.div_eq_of_lt hc] at h
    omega
  · exact Nat.le_add_right _ _

theorem isLastPlace_shift (c : Nat) :
    IsLastPlace (mantissa c * 2 ^ shift c) grain (shift c) := by
  refine ⟨?_, fun t ht => ?_⟩
  · rw [Nat.mul_comm _ grain]
    refine Nat.mul_lt_mul_of_pos_left ?_ grain_pos
    rw [pow_add, Nat.mul_comm]
    exact Nat.mul_lt_mul_of_pos_left (mantissa_lt c) (by positivity)
  · rw [Nat.mul_comm _ grain]
    refine Nat.mul_le_mul_left _ ?_
    calc 2 ^ (t + 53) ≤ 2 ^ (52 + shift c) := Nat.pow_le_pow_right (by decide) (by omega)
      _ = 2 ^ 52 * 2 ^ shift c := pow_add _ _ _
      _ ≤ mantissa c * 2 ^ shift c := Nat.mul_le_mul_right _ (le_mantissa (by omega))

theorem ratio_eq (c : Nat) : ratio c = (mantissa c * 2 ^ shift c, grain) := by
  rw [ratio, pow2_eq_grain]
  rfl

/-- The quotient of a finite code is rounded to the code. -/
theorem codeOfRatio_ratio (hc : c ≤ infCode) : codeOfRatio (ratio c).1 (ratio c).2 = c := by
  rw [ratio_eq]
  dsimp only
  by_cases h0 : mantissa c * 2 ^ shift c = 0
  · have hc0 : c = 0 := by
      by_contra hne
      have := Nat.mul_pos (mantissa_pos hne) (Nat.pow_pos (n := shift c) (a := 2) (by decide))
      omega
    rw [h0, codeOfRatio, if_pos rfl, hc0]
  · have hround : roundDiv (mantissa c * 2 ^ shift c * grain) (grain * 2 ^ shift c) =
        mantissa c := by
      rw [Nat.mul_assoc, Nat.mul_comm (2 ^ shift c)]
      exact roundDiv_mul_self (Nat.mul_pos grain_pos (by positivity))
    rw [codeOfRatio_eq h0 grain_pos.ne' (isLastPlace_shift c), hround, shift_mul_add_mantissa,
      Nat.min_eq_left hc]

theorem shift_le (hc : c < infCode) : shift c ≤ 2045 := by
  have hdiv : c / 2 ^ 52 < 2047 := Nat.div_lt_of_lt_mul (by rwa [Nat.mul_comm])
  show c / 2 ^ 52 - 1 ≤ 2045
  omega

/-! ### Decimals -/

theorem digitCount_of_lt (h : n < 10) : digitCount n = 1 := by
  rw [digitCount, if_pos h]

theorem digitCount_of_le (h : 10 ≤ n) : digitCount n = digitCount (n / 10) + 1 := by
  rw [digitCount, if_neg (by omega)]

theorem lt_pow_digitCount (n : Nat) : n < 10 ^ digitCount n := by
  induction n using digitCount.induct with
  | case1 n h =>
    rw [digitCount_of_lt h]
    exact h
  | case2 n h ih =>
    rw [digitCount_of_le (by omega), pow_succ]
    omega

theorem lt_digitCount (h : 10 ^ k ≤ n) : k < digitCount n := by
  by_contra hk
  have hlt := lt_pow_digitCount n
  have := Nat.pow_le_pow_right (show 0 < 10 by decide) (Nat.not_lt.mp hk)
  omega

theorem digitCount_le (hn : n ≠ 0) (h : n < 10 ^ k) : digitCount n ≤ k := by
  induction n using digitCount.induct generalizing k with
  | case1 n hlt =>
    rw [digitCount_of_lt hlt]
    rcases k with _ | k
    · exact absurd (Nat.lt_one_iff.mp h) hn
    · omega
  | case2 n hge ih =>
    rcases k with _ | k
    · exact absurd (Nat.lt_one_iff.mp h) hn
    · rw [digitCount_of_le (by omega)]
      rw [pow_succ] at h
      have := ih (k := k) (by omega) (by omega)
      omega

theorem digitCount_mul_pow (hd : d ≠ 0) (k : Nat) : digitCount (d * 10 ^ k) = digitCount d + k := by
  induction k with
  | zero => simp
  | succ k ih =>
    have hpos : 0 < d * 10 ^ k := Nat.mul_pos (Nat.pos_of_ne_zero hd) (by positivity)
    rw [pow_succ, ← Nat.mul_assoc, digitCount_of_le (by omega), Nat.mul_div_cancel _ (by decide),
      ih]
    omega

theorem decimalRatio_eq (d : Nat) (e : Int) :
    decimalRatio d e = (d * 10 ^ e.toNat, 10 ^ (-e).toNat) := by
  unfold decimalRatio
  split
  · rw [Int.toNat_of_nonpos (z := e) (by omega), pow_zero, Nat.mul_one]
    rfl
  · rw [Int.toNat_of_nonpos (z := -e) (by omega), pow_zero]
    rfl

/-- Zeros at the end of the digits may go to the exponent. -/
theorem codeOfDecimal_mul_pow (d : Nat) (e : Int) (k : Nat) :
    codeOfDecimal (d * 10 ^ k) (e - k) = codeOfDecimal d e := by
  by_cases hd : d = 0
  · rw [hd, Nat.zero_mul, codeOfDecimal, codeOfDecimal, if_pos rfl, if_pos rfl]
  · have hdk : d * 10 ^ k ≠ 0 := Nat.mul_ne_zero hd (by positivity)
    have htop : ((digitCount d + k : Nat) : Int) + (e - k) = digitCount d + e := by omega
    have hratio : codeOfRatio (decimalRatio (d * 10 ^ k) (e - k)).1
        (decimalRatio (d * 10 ^ k) (e - k)).2 =
          codeOfRatio (decimalRatio d e).1 (decimalRatio d e).2 := by
      rw [decimalRatio_eq, decimalRatio_eq]
      refine codeOfRatio_congr (by positivity) (by positivity) ?_
      dsimp only
      rw [Nat.mul_assoc, Nat.mul_assoc, Nat.mul_assoc, ← pow_add, ← pow_add, ← pow_add]
      congr 2
      omega
    rw [codeOfDecimal, codeOfDecimal, if_neg hd, if_neg hdk, digitCount_mul_pow hd]
    simp only [htop, hratio]

/-- A fraction with a power of two below it is a decimal. -/
theorem codeOfDecimal_mul_five_pow (hn : n ≠ 0) (hlow : (k : Int) - 324 < digitCount (n * 5 ^ k))
    (hhigh : digitCount (n * 5 ^ k) ≤ 309 + k) :
    codeOfDecimal (n * 5 ^ k) (-k) = codeOfRatio n (2 ^ k) := by
  have hd : n * 5 ^ k ≠ 0 := Nat.mul_ne_zero hn (by positivity)
  rw [codeOfDecimal, if_neg hd]
  dsimp only
  rw [if_neg (by omega), if_neg (by omega), decimalRatio_eq]
  refine codeOfRatio_congr (by positivity) (by positivity) ?_
  dsimp only
  rw [Int.toNat_of_nonpos (by omega), neg_neg, Int.toNat_natCast, pow_zero, Nat.mul_one,
    Nat.mul_assoc, ← Nat.mul_pow]

/-! ### The shortest decimal -/

theorem codeOfDecimal_of_readsBackOn? {p : Nat × Int} (h : readsBackOn? c e = some p) :
    codeOfDecimal p.1 p.2 = c := by
  unfold readsBackOn? at h
  dsimp only at h
  split at h
  · cases h
    assumption
  · split at h
    · cases h
      assumption
    · cases h

/-- Numbers in units of `1 / grain` are below `grain * 2 ^ 1024`. -/
theorem ratio_lt (hc : c < infCode) : (ratio c).1 < grain * 2 ^ 1024 := by
  obtain ⟨p, hp, hgrain⟩ := exists_grain
  rw [ratio_eq]
  calc mantissa c * 2 ^ shift c < 2 ^ 53 * 2 ^ shift c :=
        Nat.mul_lt_mul_of_pos_right (mantissa_lt c) (by positivity)
    _ = 2 ^ (53 + shift c) := (pow_add _ _ _).symm
    _ ≤ 2 ^ (p + 1024) := Nat.pow_le_pow_right (by decide) (by have := shift_le hc; omega)
    _ = grain * 2 ^ 1024 := by rw [pow_add, hgrain]

/-- The exact value of a finite number is a decimal that reads back. -/
theorem codeOfDecimal_exact (h0 : c ≠ 0) (hc : c < infCode) {p : Nat} (hp : p = 1074) :
    codeOfDecimal ((ratio c).1 * Nat.pow 5 p) (-p) = c := by
  obtain ⟨p, rfl, hgrain⟩ : ∃ q, q = p ∧ grain = 2 ^ q := by
    obtain ⟨q, hq, hgrain⟩ := exists_grain
    exact ⟨q, hq.trans hp.symm, hgrain⟩
  have hpos : 0 < (ratio c).1 := by
    rw [ratio_eq]
    exact Nat.mul_pos (mantissa_pos h0) (by positivity)
  -- the powers that bound the value on both sides
  obtain ⟨low, hlow, hle⟩ : ∃ k, k = 750 ∧ 10 ^ k ≤ 5 ^ p := by
    refine ⟨125 * 6, rfl, ?_⟩
    calc 10 ^ (125 * 6) = (2 ^ 125) ^ 6 * 5 ^ (125 * 6) := by rw [← pow_mul, ← Nat.mul_pow]
      _ ≤ (5 ^ 54) ^ 6 * 5 ^ (125 * 6) :=
        Nat.mul_le_mul_right _ (Nat.pow_le_pow_left (by decide +kernel) 6)
      _ = 5 ^ p := by rw [← pow_mul, ← pow_add, hp]
  obtain ⟨high, hhigh, hlt⟩ : ∃ k, k = 309 ∧ 2 ^ 1024 ≤ 10 ^ k := by
    refine ⟨_, rfl, ?_⟩
    decide +kernel
  have hdown : low < digitCount ((ratio c).1 * 5 ^ p) :=
    lt_digitCount (hle.trans (Nat.le_mul_of_pos_left _ hpos))
  have hup : digitCount ((ratio c).1 * 5 ^ p) ≤ high + p := by
    refine digitCount_le (Nat.mul_ne_zero hpos.ne' (by positivity)) ?_
    calc (ratio c).1 * 5 ^ p < grain * 2 ^ 1024 * 5 ^ p :=
          Nat.mul_lt_mul_of_pos_right (ratio_lt hc) (by positivity)
      _ ≤ grain * 10 ^ high * 5 ^ p := Nat.mul_le_mul_right _ (Nat.mul_le_mul_left _ hlt)
      _ = 10 ^ (high + p) := by
        rw [hgrain, Nat.mul_right_comm, ← Nat.mul_pow, ← pow_add, Nat.add_comm]
  rw [Nat.pow_eq, codeOfDecimal_mul_five_pow hpos.ne' (by omega) (by omega), ← hgrain]
  have hround := codeOfRatio_ratio hc.le
  rwa [ratio_eq] at hround ⊢

/-- The shortest decimal of a finite number reads back as the number. -/
theorem codeOfDecimal_shortest (h0 : c ≠ 0) (hc : c < infCode) :
    codeOfDecimal (shortest c).1 (shortest c).2 = c := by
  unfold shortest
  dsimp only
  cases hfind : (List.range 17).findSome? fun (i : Nat) =>
      readsBackOn? c (leadingExponent (ratio c).1 (ratio c).2 - i) with
  | none =>
    rw [Option.getD_none]
    generalize hp : 1074 = p
    rw [show (-1074 : Int) = -p by omega]
    exact codeOfDecimal_exact h0 hc hp.symm
  | some p =>
    obtain ⟨i, -, hi⟩ := List.exists_of_findSome?_eq_some hfind
    exact codeOfDecimal_of_readsBackOn? hi

end Eikonal.Binary64
