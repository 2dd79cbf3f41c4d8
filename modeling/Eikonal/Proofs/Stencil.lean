import Eikonal.Proofs.Scalar.Order
import Eikonal.Stencil

/-! Local updates are causal: an update that is a number is not below the values it comes from. -/

namespace Eikonal

variable {α : Type} [Scalar α] [LawfulScalar α]

/-- A length that is a number is not negative. -/
theorem Tensor.length_nonneg (m : Tensor α) (d : Vec α)
    (h : Scalar.isNaN (m.length d) = false) : Scalar.le Scalar.zero (m.length d) :=
  LawfulScalar.sqrt_nonneg (Scalar.le_upper (LawfulScalar.not_nan_of_sqrt h) Scalar.isNaN_zero).2

namespace Stencil

theorem le_line {c j : Vec α} {uj : α} {m : Tensor α} (hu : Scalar.le Scalar.zero uj)
    (h : Scalar.isNaN (line c j uj m) = false) : Scalar.le uj (line c j uj m) :=
  LawfulScalar.le_add hu (m.length_nonneg _ (LawfulScalar.not_nan_of_add h))

omit [LawfulScalar α] in
theorem le_triangle [OrderedScalar α] {c j k : Vec α} {uj uk : α} {m : Tensor α}
    (hj : Scalar.isNaN uj = false) (hk : Scalar.isNaN uk = false)
    (h : Scalar.isNaN (triangle c j uj k uk m) = false) :
    Scalar.le uj (triangle c j uj k uk m) ∧ Scalar.le uk (triangle c j uj k uk m) := by
  unfold triangle Chord.value at h ⊢
  obtain ⟨h1, h2⟩ := Scalar.le_upper h hk
  obtain ⟨-, h3⟩ := Scalar.le_upper (OrderedScalar.not_nan_left h1) hj
  exact ⟨OrderedScalar.le_trans h3 h1, h2⟩

omit [LawfulScalar α] in
/-- The least arrival over a chord is at most the arrivals over its ends. -/
theorem Chord.least_le_ends [OrderedScalar α] {t : Chord α}
    (h0 : Scalar.isNaN (t.cost Scalar.zero) = false)
    (h1 : Scalar.isNaN (t.cost Scalar.one) = false) :
    Scalar.le t.least (t.cost Scalar.zero) ∧ Scalar.le t.least (t.cost Scalar.one) := by
  have hends := Scalar.isNaN_lower (b := t.cost Scalar.one) h0
  have hle : Scalar.le t.least (Scalar.lower (t.cost Scalar.zero) (t.cost Scalar.one)) := by
    unfold least
    split
    · split
      · exact Scalar.lower_le_left hends
      · exact Scalar.le_refl hends
    · exact Scalar.le_refl hends
  exact ⟨OrderedScalar.le_trans hle (Scalar.lower_le_left h0),
    OrderedScalar.le_trans hle (Scalar.lower_le_right h0 h1)⟩

end Stencil

end Eikonal
