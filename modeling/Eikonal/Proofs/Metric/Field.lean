import Eikonal.Metric.Field
import Eikonal.Proofs.NdArray
import Mathlib.Algebra.BigOperators.Group.List.Basic

/-! Metric fields and arrays. A field is read from an array if every tensor passes every check, and
the array that holds a field is read as the field again. -/

namespace Eikonal.MetricField

variable {α : Type} [Scalar α] {n : Int} {metric : NdArray α} {field : MetricField α}

/-- A field is read if all its tensors pass the checks. -/
theorem ofArray_eq_ok_iff : ofArray n metric = .ok field ↔
    tensors? n metric = some field ∧ field.all Tensor.isFinite ∧
      field.findIdx? (Tensor.isAsymmetric tolerance) = none ∧
      field.findIdx? Tensor.isIndefinite = none := by
  unfold ofArray
  constructor
  · intro h
    split at h
    · cases h
    · rename_i m hm
      split at h
      · cases h
      · rename_i hfinite
        split at h
        · cases h
        · rename_i hsymm
          split at h
          · cases h
          · rename_i hdefinite
            cases h
            exact ⟨hm, by simpa using hfinite, Option.eq_none_iff_forall_ne_some.mpr hsymm,
              Option.eq_none_iff_forall_ne_some.mpr hdefinite⟩
  · rintro ⟨h, hfinite, hsymm, hdefinite⟩
    rw [h]
    simp [hfinite, hsymm, hdefinite]

/-! ### The array of a field -/

/-- The array of a field is read as the field. -/
theorem tensors?_toArray (field : MetricField α) :
    tensors? field.size (toArray field) = some field := by
  have hrows : (toArray field).groups 4 = field.map fun t => t.entries.toArray :=
    NdArray.groups_flatMap (f := Tensor.entries) (by decide) (fun _ => rfl) _ field
  unfold tensors?
  dsimp only
  rw [if_pos (by simp [toArray]), hrows, Array.map_map]
  exact congrArg some (Array.map_id field)

end Eikonal.MetricField
