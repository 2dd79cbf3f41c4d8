import Eikonal.Proofs.Scalar.Rank
import Eikonal.Proofs.Scalar.Rounding
import Mathlib

/-! Binary64 numbers are lawful scalars. Their comparison is that of class, exponent and mantissa,
one after the other; sums and roots of numbers that are not negative are computed on the parts, and
packing keeps their sign. -/

namespace Eikonal.Unpacked

open Float.Model Float.Model.UnpackedFloat

/-- Where a number that is not a NaN stands in the order. -/
def rank : UnpackedFloat → Option (ℤ ×ₗ ℤ ×ₗ ℤ)
  | .notANumber => none
  | .infinity .negative => some (toLex (-2, toLex (0, 0)))
  | .finite .negative m e _ => some (toLex (-1, toLex (-e, -m)))
  | .zero _ => some (toLex (0, toLex (0, 0)))
  | .finite .positive m e _ => some (toLex (1, toLex (e, m)))
  | .infinity .positive => some (toLex (2, toLex (0, 0)))

theorem lt_iff_rank (a b : UnpackedFloat) :
    a.lt b ↔ ∃ x ∈ rank a, ∃ y ∈ rank b, x < y := by
  unfold UnpackedFloat.lt
  rcases a with (_ | _) | _ | _ | ⟨_ | _, m₁, e₁, _⟩ <;>
    rcases b with (_ | _) | _ | _ | ⟨_ | _, m₂, e₂, _⟩ <;>
      simp [UnpackedFloat.compare, rank, Prod.Lex.toLex_lt_toLex, Ordering.then_eq_lt,
        Ordering.then_eq_gt, compare_lt_iff_lt, compare_gt_iff_gt]
  -- The two infinities are left, which are compared by their signs.
  rfl

theorem beq_iff_rank (a b : UnpackedFloat) :
    a.beq b ↔ ∃ x ∈ rank a, ∃ y ∈ rank b, x = y := by
  unfold UnpackedFloat.beq
  rcases a with (_ | _) | _ | _ | ⟨_ | _, m₁, e₁, _⟩ <;>
    rcases b with (_ | _) | _ | _ | ⟨_ | _, m₂, e₂, _⟩ <;>
      simp [UnpackedFloat.compare, rank, Ordering.then_eq_eq] <;>
      first | rfl | omega

theorem rank_le_top (f : UnpackedFloat) : ∀ x ∈ rank f, x ≤ toLex (2, toLex (0, 0)) := by
  intro x hx
  rcases f with (_ | _) | _ | _ | ⟨_ | _, m, e, _⟩ <;> cases hx <;>
    simp [Prod.Lex.toLex_le_toLex]

theorem exists_rank_of_isFinite {f : UnpackedFloat} (hf : f.isFinite) :
    ∃ x ∈ rank f, x < toLex (2, toLex (0, 0)) := by
  rcases f with (_ | _) | _ | _ | ⟨_ | _, m, e, _⟩
  · cases hf
  · cases hf
  · cases hf
  all_goals exact ⟨_, rfl, by simp [Prod.Lex.toLex_lt_toLex]⟩

theorem isFinite_of_rank {f : UnpackedFloat} {x : ℤ ×ₗ ℤ ×ₗ ℤ} (hx : x ∈ rank f)
    (h0 : toLex (0, toLex (0, 0)) ≤ x) (h1 : x < toLex (2, toLex (0, 0))) : f.isFinite := by
  rcases f with (_ | _) | _ | _ | ⟨_ | _, m, e, _⟩ <;> cases hx
  · simp [Prod.Lex.toLex_le_toLex] at h0
  · simp at h1
  all_goals rfl

/-- Whether a number is neither negative nor a NaN. -/
def Nonneg : UnpackedFloat → Prop
  | .zero _ => True
  | .finite .positive .. => True
  | .infinity .positive => True
  | _ => False

/-- Both numbers have a rank, and that of the first is not above the other. -/
def Le (f g : UnpackedFloat) : Prop := ∃ x ∈ rank f, ∃ y ∈ rank g, x ≤ y

theorem le_refl_of_nonneg {f : UnpackedFloat} (hf : Nonneg f) : Le f f := by
  rcases f with (_ | _) | _ | _ | ⟨_ | _, m, e, _⟩
  all_goals first | exact hf.elim | exact ⟨_, rfl, _, rfl, le_rfl⟩

theorem nonneg_iff (s : Sign) (f : UnpackedFloat) : Nonneg f ↔ Le (.zero s) f := by
  rcases f with (_ | _) | _ | _ | ⟨_ | _, m, e, _⟩ <;>
    simp [Nonneg, Le, rank, Prod.Lex.toLex_le_toLex]

theorem nonneg_unpack_packComponents {e : BitVec 11} {m : BitVec 52} (he : e ≠ -1#11) :
    Nonneg (unpack binary64 (packComponents binary64 .positive e m)) := by
  unfold UnpackedFloat.unpack
  simp only [unpackMantissa_packComponents, unpackExponent_packComponents,
    unpackSign_packComponents, ofBitVec_toBitVec, if_neg he]
  split
  · split
    · trivial
    · trivial
  · trivial

/-- Packing keeps a number from becoming negative or a NaN. -/
theorem nonneg_repack {f : UnpackedFloat} (hf : Nonneg f) : Nonneg (repack f) := by
  rcases f with (_ | _) | _ | s | ⟨_ | _, m, e, hm⟩
  · exact hf.elim
  · rw [repack_infinity]
    trivial
  · exact hf.elim
  · rw [repack_zero]
    trivial
  · exact hf.elim
  · unfold repack UnpackedFloat.pack
    dsimp only
    split
    · rw [show unpack binary64 (packedInfinity binary64 .positive) = .infinity .positive from rfl]
      trivial
    · rename_i hsmall
      split
      · refine nonneg_unpack_packComponents fun h => hsmall ?_
        have h := congrArg BitVec.toNat h
        rw [BitVec.toNat_ofNat] at h
        have h1 : (-1#11).toNat = 2047 := rfl
        show 2 ^ 11 ≤ _
        omega
      · exact nonneg_unpack_packComponents (by decide)

/-- A number that a pattern of 64 bits stands for. -/
def Stored (f : UnpackedFloat) : Prop := ∃ b, unpack binary64 b = f

theorem Stored.repack_eq {f : UnpackedFloat} (h : Stored f) : repack f = f := by
  obtain ⟨b, hb⟩ := h
  rcases f with s | _ | s | ⟨s, m, e, hm⟩
  · exact repack_infinity s
  · exact repack_notANumber
  · exact repack_zero s
  · obtain ⟨hc, he⟩ := canonical_unpack hb
    rw [repack_finite hm hc, if_pos he]

/-- The sum with a number that is not negative does not fall below the other part. -/
theorem le_repack_add {f g : UnpackedFloat} (hf : Nonneg f) (hg : Nonneg g) (hfs : Stored f)
    (hgs : Stored g) : Le f (repack (add binary64 f g)) := by
  rcases f with (_ | _) | _ | s | ⟨_ | _, m₁, e₁, h₁⟩
  · exact hf.elim
  · have hadd : add binary64 (.infinity .positive) g = .infinity .positive := by
      rcases g with (_ | _) | _ | s | ⟨_ | _, m₂, e₂, h₂⟩
      all_goals first | exact hg.elim | rfl
    rw [hadd, repack_infinity]
    exact le_refl_of_nonneg hf
  · exact hf.elim
  · refine (nonneg_iff s _).mp (nonneg_repack ?_)
    rcases g with (_ | _) | _ | s' | ⟨_ | _, m₂, e₂, h₂⟩
    · exact hg.elim
    · trivial
    · exact hg.elim
    · cases s <;> cases s' <;> trivial
    · exact hg.elim
    · trivial
  · exact hf.elim
  · rcases g with (_ | _) | _ | s' | ⟨_ | _, m₂, e₂, h₂⟩
    · exact hg.elim
    · show Le _ (repack (.infinity .positive))
      rw [repack_infinity]
      exact ⟨_, rfl, _, rfl, by simp [Prod.Lex.toLex_le_toLex]⟩
    · exact hg.elim
    · show Le _ (repack (.finite .positive m₁ e₁ h₁))
      rw [hfs.repack_eq]
      exact le_refl_of_nonneg hf
    · exact hg.elim
    · obtain ⟨b₁, hb₁⟩ := hfs
      obtain ⟨b₂, hb₂⟩ := hgs
      obtain ⟨m, e, hm, hadd, hc, hle⟩ :=
        exists_add_finite h₁ h₂ (canonical_unpack hb₁).1 (canonical_unpack hb₂).1
      rw [hadd, repack_finite hm hc]
      split
      · refine ⟨_, rfl, _, rfl, ?_⟩
        rw [Prod.Lex.toLex_le_toLex]
        refine Or.inr ⟨rfl, ?_⟩
        rw [Prod.Lex.toLex_le_toLex]
        exact hle.imp_right fun h => ⟨h.1.symm, Int.ofNat_le.mpr h.2⟩
      · exact ⟨_, rfl, _, rfl, by simp [Prod.Lex.toLex_le_toLex]⟩

theorem add_notANumber (f : UnpackedFloat) : add binary64 f .notANumber = .notANumber := by
  rcases f with _ | _ | _ | _ <;> rfl

theorem nonneg_sqrt {f : UnpackedFloat} (hf : Nonneg f) :
    Nonneg (UnpackedFloat.sqrt binary64 f) := by
  rcases f with (_ | _) | _ | s | ⟨_ | _, m, e, hm⟩
  · exact hf.elim
  · trivial
  · exact hf.elim
  · trivial
  · exact hf.elim
  · unfold UnpackedFloat.sqrt roundWithAccuracy
    dsimp only
    split
    · trivial
    · trivial

end Eikonal.Unpacked

namespace Eikonal

open Float.Model Unpacked

/-- The parts of a binary64 number. -/
def unpacked (x : Float) : UnpackedFloat := x.toModel.unpack

theorem stored_unpacked (x : Float) : Stored (unpacked x) := ⟨_, rfl⟩

theorem unpacked_add (a b : Float) :
    unpacked (a + b) = repack (UnpackedFloat.add binary64 (unpacked a) (unpacked b)) := rfl

theorem unpacked_sqrt (a : Float) :
    unpacked (Scalar.sqrt a) = repack (UnpackedFloat.sqrt binary64 (unpacked a)) := rfl

theorem lt_iff_unpacked (a b : Float) :
    Scalar.lt a b ↔ ∃ x ∈ rank (unpacked a), ∃ y ∈ rank (unpacked b), x < y := by
  rw [← lt_iff_rank]
  show decide (a < b) = true ↔ _
  rw [decide_eq_true_iff]
  show decide ((unpacked a).lt (unpacked b) = true) = true ↔ _
  rw [decide_eq_true_iff]

theorem eq_iff_unpacked (a b : Float) :
    Scalar.eq a b ↔ ∃ x ∈ rank (unpacked a), ∃ y ∈ rank (unpacked b), x = y :=
  beq_iff_rank _ _

theorem le_iff_unpacked (a b : Float) : Scalar.le a b ↔ Le (unpacked a) (unpacked b) :=
  le_iff_of_rank lt_iff_unpacked eq_iff_unpacked a b

theorem not_nan_iff_unpacked (a : Float) :
    Scalar.isNaN a = false ↔ unpacked a ≠ .notANumber := by
  rw [isNaN_iff_of_rank eq_iff_unpacked]
  rcases unpacked a with (_ | _) | _ | _ | ⟨_ | _, m, e, _⟩ <;> simp [rank]

theorem zero_le_iff_unpacked (a : Float) : Scalar.le Scalar.zero a ↔ Nonneg (unpacked a) := by
  rw [le_iff_unpacked, nonneg_iff .positive]
  exact Iff.rfl

instance : OrderedScalar Float := by
  refine orderedScalar_of_rank lt_iff_unpacked eq_iff_unpacked (toLex (0, toLex (0, 0)))
    (toLex (2, toLex (0, 0))) ?_ rfl rfl ?_ ?_ ?_
  · simp [Prod.Lex.toLex_lt_toLex]
  · exact fun a => rank_le_top (unpacked a)
  · exact fun a ha => exists_rank_of_isFinite ha
  · exact fun a x hx h0 h1 => isFinite_of_rank hx h0 h1

instance : LawfulScalar Float where
  le_add {u x} hu hx := by
    rw [zero_le_iff_unpacked] at hu hx
    rw [le_iff_unpacked, unpacked_add]
    exact le_repack_add hu hx (stored_unpacked u) (stored_unpacked x)
  not_nan_of_add {u x} h := by
    rw [not_nan_iff_unpacked, unpacked_add] at h
    rw [not_nan_iff_unpacked]
    intro hx
    rw [hx, add_notANumber] at h
    exact h repack_notANumber
  sqrt_nonneg {x} hx := by
    rw [zero_le_iff_unpacked] at *
    rw [unpacked_sqrt]
    exact nonneg_repack (nonneg_sqrt hx)
  not_nan_of_sqrt {x} h := by
    rw [not_nan_iff_unpacked, unpacked_sqrt] at h
    rw [not_nan_iff_unpacked]
    intro hx
    rw [hx] at h
    exact h repack_notANumber

end Eikonal
