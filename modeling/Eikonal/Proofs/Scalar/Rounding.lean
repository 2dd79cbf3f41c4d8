import Eikonal.Scalar.Float
import Mathlib

/-! Packing and rounding of binary64 numbers. A finite number is kept in canonical form: its
mantissa has 53 bits, or fewer at the least exponent. Packing loses nothing of such a number unless
it is too large. Rounding gives a canonical number, and the sum of two positive numbers is never
rounded to a number below the first, because the target exponent grows with the exact sum. -/

namespace Eikonal.Unpacked

open Float.Model Float.Model.UnpackedFloat

/-- The format of binary64 numbers. -/
abbrev binary64 : Format := Format.binary64

/-! ### Packing -/

/-- A number as packing and unpacking leaves it. -/
def repack (f : UnpackedFloat) : UnpackedFloat := unpack binary64 (pack binary64 f)

theorem repack_notANumber : repack .notANumber = .notANumber := rfl

theorem repack_infinity (s : Sign) : repack (.infinity s) = .infinity s := by
  cases s <;> rfl

theorem repack_zero (s : Sign) : repack (.zero s) = .zero s := by
  cases s <;> rfl

/-- The number `m * 2 ^ e` has a full mantissa or the least exponent. -/
structure Canonical (m : Nat) (e : Int) : Prop where
  lt : m < 2 ^ 53
  le : -1074 ≤ e
  full : 2 ^ 52 ≤ m ∨ e = -1074

theorem unpackSign_packComponents (s : Sign) (e : BitVec 11) (m : BitVec 52) :
    @unpackSign binary64 (packComponents binary64 s e m) = s.toBitVec := by
  ext i hi
  obtain rfl : i = 0 := by omega
  simp only [unpackSign, packComponents, BitVec.cast_eq, BitVec.getElem_extract]
  rw [BitVec.getLsbD_append, BitVec.getLsbD_append]
  rfl

theorem ofBitVec_toBitVec (s : Sign) : Sign.ofBitVec s.toBitVec = s := by cases s <;> rfl

theorem toNat_implicit (m : BitVec 52) : (1#1 ++ m).toNat = 2 ^ 52 + m.toNat := by
  rw [BitVec.toNat_append, ← Nat.shiftLeft_add_eq_or_of_lt m.isLt]
  rfl

theorem toNat_ofNat_of_lt {w n : Nat} (h : n < 2 ^ w) : (BitVec.ofNat w n).toNat = n := by
  rw [BitVec.toNat_ofNat, Nat.mod_eq_of_lt h]

/-- Components with an exponent field between the least and the greatest one are a number with the
implicit bit. -/
theorem unpack_packComponents_normal (s : Sign) {m x : Nat} (hlo : 2 ^ 52 ≤ m) (hhi : m < 2 ^ 53)
    (hx : 0 < x) (hx' : x < 2047) :
    unpack binary64 (packComponents binary64 s (BitVec.ofNat 11 x) (BitVec.ofNat 52 m)) =
      .finite s m ((x : Int) - 1075) (by omega) := by
  have hexp : (BitVec.ofNat 11 x).toNat = x := toNat_ofNat_of_lt (by omega)
  have hmant : (1#1 ++ BitVec.ofNat 52 m).toNat = m := by
    rw [toNat_implicit, BitVec.toNat_ofNat]
    omega
  have htop : BitVec.ofNat 11 x ≠ -1#11 := by
    intro h
    have := congrArg BitVec.toNat h
    rw [hexp] at this
    have h1 : (-1#11).toNat = 2047 := rfl
    omega
  have hzero : BitVec.ofNat 11 x ≠ 0#11 := by
    intro h
    have := congrArg BitVec.toNat h
    rw [hexp, BitVec.toNat_ofNat] at this
    omega
  unfold UnpackedFloat.unpack
  simp only [unpackMantissa_packComponents, unpackExponent_packComponents,
    unpackSign_packComponents, ofBitVec_toBitVec, if_neg htop, if_neg hzero, hexp, hmant]
  rfl

/-- Components with the least exponent field are a number without the implicit bit. -/
theorem unpack_packComponents_subnormal (s : Sign) {m : Nat} (hm : 0 < m) (hhi : m < 2 ^ 52) :
    unpack binary64 (packComponents binary64 s 0 (BitVec.ofNat 52 m)) =
      .finite s m (-1074) hm := by
  have hmant : (BitVec.ofNat 52 m).toNat = m := toNat_ofNat_of_lt hhi
  have hzero : BitVec.ofNat 52 m ≠ 0#52 := by
    intro h
    have := congrArg BitVec.toNat h
    rw [hmant, BitVec.toNat_ofNat] at this
    omega
  unfold UnpackedFloat.unpack
  simp only [unpackMantissa_packComponents, unpackExponent_packComponents,
    unpackSign_packComponents, ofBitVec_toBitVec, dif_neg hzero, hmant]
  rfl

/-- A number in canonical form is packed without loss unless it is too large. -/
theorem repack_finite {s : Sign} {m : Nat} {e : Int} (hm : 0 < m) (h : Canonical m e) :
    repack (.finite s m e hm) = if e ≤ 971 then .finite s m e hm else .infinity s := by
  have hlt := h.lt
  have hle := h.le
  have hbias : (e + binary64.exponentBias + binary64.mantissaBitsWithoutImplicit).toNat =
      (e + 1075).toNat := by
    show (e + 1023 + 52).toNat = _
    omega
  unfold repack UnpackedFloat.pack
  dsimp only
  rw [hbias]
  by_cases hbig : e ≤ 971
  · rw [if_pos hbig, if_neg (by show ¬2 ^ 11 ≤ _; omega)]
    by_cases hfull : 2 ^ 52 ≤ m
    · have hlog : m.log2 = 52 := (Nat.log2_eq_iff (by omega)).mpr ⟨hfull, hlt⟩
      rw [if_pos (by rw [hlog]; rfl)]
      refine (unpack_packComponents_normal s hfull hlt (by omega) (by omega)).trans ?_
      congr 1
      omega
    · have hlog : m.log2 < 52 := (Nat.log2_lt (by omega)).mpr (by omega)
      rw [if_neg (by show ¬m.log2 + 1 = 53; omega)]
      refine (unpack_packComponents_subnormal s hm (by omega)).trans ?_
      congr 1
      have := h.full
      omega
  · rw [if_neg hbig, if_pos (by show 2 ^ 11 ≤ _; omega)]
    exact repack_infinity s

/-- The parts that a number is unpacked to are in canonical form. -/
theorem canonical_unpack {b : BitVec 64} {s : Sign} {m : Nat} {e : Int} {hm : 0 < m}
    (h : unpack binary64 b = .finite s m e hm) : Canonical m e ∧ e ≤ 971 := by
  unfold UnpackedFloat.unpack at h
  dsimp only at h
  split at h
  · split at h <;> cases h
  · rename_i htop
    have htop : (@unpackExponent binary64 b).toNat ≠ 2047 := by
      intro h
      exact htop (BitVec.eq_of_toNat_eq h)
    have hexp : (@unpackExponent binary64 b).toNat < 2 ^ 11 := BitVec.isLt _
    have hmant : (@unpackMantissa binary64 b).toNat < 2 ^ 52 := BitVec.isLt _
    have hbias :
        (binary64.exponentBias : Int) + binary64.mantissaBitsWithoutImplicit = 1075 := rfl
    rw [hbias] at h
    split at h
    · rename_i hzero
      split at h
      · cases h
      · injection h with h1 h2 h3
        have h4 : (@unpackExponent binary64 b).toNat = 0 := by rw [hzero]; rfl
        subst h2
        refine ⟨⟨by omega, by omega, Or.inr (by omega)⟩, by omega⟩
    · rename_i hzero
      have hzero : (@unpackExponent binary64 b).toNat ≠ 0 := by
        intro h
        exact hzero (BitVec.eq_of_toNat_eq h)
      injection h with h1 h2 h3
      rw [toNat_implicit] at h2
      refine ⟨⟨by omega, by omega, Or.inl (by omega)⟩, by omega⟩

/-! ### Rounding -/

theorem mantissa_shiftRight (em : ExtendedMantissa) (k : Nat) :
    (em >>> k).mantissa = em.mantissa / 2 ^ k := by
  show (Nat.repeat ExtendedMantissa.shiftRightOne k em).mantissa = _
  induction k with
  | zero => simp [Nat.repeat]
  | succ k ih =>
    show (Nat.repeat ExtendedMantissa.shiftRightOne k em).mantissa / 2 = _
    rw [ih, Nat.div_div_eq_div_mul, Nat.pow_succ]

theorem le_roundedMantissa (em : ExtendedMantissa) :
    em.mantissa ≤ em.roundedMantissa ∧ em.roundedMantissa ≤ em.mantissa + 1 := by
  obtain ⟨m, r, s⟩ := em
  cases r <;> cases s <;>
    simp only [ExtendedMantissa.roundedMantissa, ExtendedMantissa.accuracy,
      Accuracy.roundToNearestEven] <;> omega

/-- The exponent that a number is rounded to. -/
def target (m : Nat) (e : Int) : Int := max (m.log2 + 1 + e - 53) (-1074)

theorem shiftToTargetExponent_eq (m : Nat) (e : Int) (a : Accuracy) :
    shiftToTargetExponent binary64 m e a =
      (ExtendedMantissa.ofMantissaAndAccuracy m a >>> (target m e - e).toNat,
        e + (target m e - e).toNat) := rfl

/-- At the target exponent a mantissa is full, or the exponent is the least. -/
theorem canonical_target {m : Nat} {e : Int} (hm : 0 < m) (he : -1074 ≤ e) (ht : e ≤ target m e) :
    0 < m / 2 ^ (target m e - e).toNat ∧
      Canonical (m / 2 ^ (target m e - e).toNat) (target m e) := by
  have hlo := Nat.log2_self_le (n := m) (by omega)
  have hhi : m < 2 ^ (m.log2 + 1) := (Nat.log2_lt (by omega)).mp (by omega)
  unfold target at ht ⊢
  by_cases hlog : 52 ≤ m.log2
  · have hk : (max (m.log2 + 1 + e - 53) (-1074) - e).toNat = m.log2 - 52 := by omega
    have h52 : 2 ^ 52 * 2 ^ (m.log2 - 52) = 2 ^ m.log2 := by
      rw [← Nat.pow_add, Nat.add_sub_cancel' hlog]
    have h53 : 2 ^ 53 * 2 ^ (m.log2 - 52) = 2 ^ (m.log2 + 1) := by
      rw [← Nat.pow_add]
      congr 1
      omega
    have hpos : 0 < 2 ^ (m.log2 - 52) := Nat.pow_pos (by omega)
    have hge : 2 ^ 52 ≤ m / 2 ^ (m.log2 - 52) := by
      rw [Nat.le_div_iff_mul_le hpos, h52]
      exact hlo
    have hlt : m / 2 ^ (m.log2 - 52) < 2 ^ 53 := by
      rw [Nat.div_lt_iff_lt_mul hpos, h53]
      exact hhi
    rw [hk]
    exact ⟨by omega, hlt, by omega, Or.inl hge⟩
  · have hk : (max (m.log2 + 1 + e - 53) (-1074) - e).toNat = 0 := by omega
    have h52 : m < 2 ^ 52 := (Nat.log2_lt (by omega)).mp (by omega)
    rw [hk, Nat.pow_zero, Nat.div_one]
    exact ⟨hm, by omega, by omega, Or.inr (by omega)⟩

/-- A mantissa of at most 53 bits stays as it is; one rounded up to `2 ^ 53` gives up a bit. -/
theorem target_of_le {r : Nat} {t : Int} (hr : 0 < r) (hr' : r ≤ 2 ^ 53) (ht : -1074 ≤ t) :
    (target r t - t).toNat = if r = 2 ^ 53 then 1 else 0 := by
  unfold target
  split
  · rename_i h
    have hlog : r.log2 = 53 := by rw [h, Nat.log2_two_pow]
    omega
  · have hlog : r.log2 < 53 := (Nat.log2_lt (by omega)).mpr (by omega)
    omega

/-- Rounding a mantissa that is not too short gives a canonical number at the target exponent or
above it, and at the target exponent itself it loses no more than the bits shifted out. -/
theorem exists_round {s : Sign} {m : Nat} {e : Int} (hm : 0 < m) (he : -1074 ≤ e)
    (ht : e ≤ target m e) :
    ∃ m' e', ∃ hm' : 0 < m', roundWithAccuracy binary64 s m e .exact = .finite s m' e' hm' ∧
      Canonical m' e' ∧
      (target m e < e' ∨ e' = target m e ∧ m / 2 ^ (target m e - e).toNat ≤ m') := by
  obtain ⟨em, hem⟩ : ∃ em, em = ExtendedMantissa.ofMantissaAndAccuracy m .exact >>>
      (target m e - e).toNat := ⟨_, rfl⟩
  have hfloor : em.mantissa = m / 2 ^ (target m e - e).toNat := by
    rw [hem, mantissa_shiftRight]
    rfl
  have hexp : e + ((target m e - e).toNat : Int) = target m e := by omega
  obtain ⟨hpos, hlt, hle, hfull⟩ := canonical_target hm he ht
  obtain ⟨hr1, hr2⟩ := le_roundedMantissa em
  unfold roundWithAccuracy
  rw [shiftToTargetExponent_eq, ← hem, hexp]
  dsimp only
  rw [shiftToTargetExponent_eq]
  rw [← hfloor] at hpos hlt hfull ⊢
  generalize em.roundedMantissa = r at *
  generalize target m e = t at *
  -- rounding up may fill the mantissa, and it is shifted once more then
  have hk := target_of_le (show 0 < r by omega) (by omega) hle
  have hmant : (ExtendedMantissa.ofMantissaAndAccuracy r .exact >>>
      (target r t - t).toNat).mantissa = r / 2 ^ (target r t - t).toNat := by
    rw [mantissa_shiftRight]
    rfl
  by_cases hr : r = 2 ^ 53
  · rw [if_pos hr] at hk
    rw [hk, hr] at hmant
    refine ⟨2 ^ 52, t + 1, by omega, ?_, ⟨by omega, by omega, by omega⟩, Or.inl (by omega)⟩
    rw [dif_neg (by rw [hk, hr, hmant]; omega)]
    congr 1
    · rw [hk, hr, hmant]
      rfl
    · omega
  · rw [if_neg hr] at hk
    rw [hk, Nat.pow_zero, Nat.div_one] at hmant
    refine ⟨r, t, by omega, ?_, ⟨by omega, by omega, by omega⟩, Or.inr ⟨rfl, by omega⟩⟩
    rw [dif_neg (by rw [hk, hmant]; omega)]
    congr 1
    · rw [hk, hmant]
    · omega

/-- The sum of two positive numbers is rounded from their exact sum. -/
theorem add_finite {m₁ m₂ : Nat} {e₁ e₂ : Int} (h₁ : 0 < m₁) (h₂ : 0 < m₂) {m : Nat} {e : Int}
    (he : e = min e₁ e₂) (hm : m = m₁ * 2 ^ (e₁ - e).toNat + m₂ * 2 ^ (e₂ - e).toNat)
    (ht : e ≤ target m e) :
    add binary64 (.finite .positive m₁ e₁ h₁) (.finite .positive m₂ e₂ h₂) =
      roundWithAccuracy binary64 .positive m e .exact := by
  unfold UnpackedFloat.add
  simp only [decreaseExponent, Sign.apply, ← he, Nat.shiftLeft_eq]
  have hpos : 0 < m := by
    rw [hm]
    exact Nat.add_pos_left (Nat.mul_pos h₁ (Nat.pow_pos (by omega))) _
  rw [← Int.natCast_add, ← hm]
  unfold UnpackedFloat.normalize
  rw [show compare (m : Int) 0 = .gt by rw [compare_gt_iff_gt]; omega]
  dsimp only [Int.toNat_natCast]
  unfold UnpackedFloat.round
  have hk : (e - target m e).toNat = 0 := by omega
  have htarget : binary64.targetExponent (totalExponent m e) = target m e := rfl
  rw [htarget]
  simp [decreaseExponent, hk]

/-- A sum of positive numbers is rounded to a number not below the first. -/
theorem exists_add_finite {m₁ m₂ : Nat} {e₁ e₂ : Int} (h₁ : 0 < m₁) (h₂ : 0 < m₂)
    (hc₁ : Canonical m₁ e₁) (hc₂ : Canonical m₂ e₂) :
    ∃ m e, ∃ hm : 0 < m, add binary64 (.finite .positive m₁ e₁ h₁) (.finite .positive m₂ e₂ h₂) =
      .finite .positive m e hm ∧ Canonical m e ∧ (e₁ < e ∨ e = e₁ ∧ m₁ ≤ m) := by
  obtain ⟨e, he⟩ : ∃ e, e = min e₁ e₂ := ⟨_, rfl⟩
  obtain ⟨m, hm⟩ : ∃ m, m = m₁ * 2 ^ (e₁ - e).toNat + m₂ * 2 ^ (e₂ - e).toNat := ⟨_, rfl⟩
  have hc1 := hc₁.le
  have hc2 := hc₂.le
  have hle : m₁ * 2 ^ (e₁ - e).toNat ≤ m := by omega
  have hpos : 0 < m := Nat.lt_of_lt_of_le (Nat.mul_pos h₁ (Nat.pow_pos (by omega))) hle
  -- the target exponent is not below that of the first number
  have ht : e₁ ≤ target m e := by
    unfold target
    rcases hc₁.full with hfull | hleast
    · have hlog : 52 + (e₁ - e).toNat ≤ m.log2 := by
        rw [Nat.le_log2 (by omega), Nat.pow_add]
        exact Nat.le_trans (Nat.mul_le_mul_right _ hfull) hle
      omega
    · omega
  obtain ⟨m', e', hm', hround, hcan, hcase⟩ :=
    exists_round (s := .positive) hpos (by omega) (show e ≤ target m e by omega)
  refine ⟨m', e', hm', ?_, hcan, ?_⟩
  · rw [add_finite h₁ h₂ he hm (by omega), hround]
  · rcases hcase with hlt | ⟨heq, hfloor⟩
    · exact Or.inl (by omega)
    · by_cases hee : e₁ < e'
      · exact Or.inl hee
      · refine Or.inr ⟨by omega, Nat.le_trans ?_ hfloor⟩
        rw [Nat.le_div_iff_mul_le (Nat.pow_pos (by omega)), show target m e = e₁ by omega]
        exact hle

end Eikonal.Unpacked
