import Eikonal.Proofs.Scalar.Order
import Mathlib

/-! Scalars by rank. To order scalars it is enough to say where in some linear order each of them
stands, NaNs nowhere. -/

namespace Eikonal

section

variable {α β : Type} [Scalar α] [LinearOrder β] {rank : α → Option β}
  (lt_iff : ∀ a b, Scalar.lt a b ↔ ∃ x ∈ rank a, ∃ y ∈ rank b, x < y)
  (eq_iff : ∀ a b, Scalar.eq a b ↔ ∃ x ∈ rank a, ∃ y ∈ rank b, x = y)

include lt_iff eq_iff in
theorem le_iff_of_rank (a b : α) : Scalar.le a b ↔ ∃ x ∈ rank a, ∃ y ∈ rank b, x ≤ y := by
  unfold Scalar.le
  rw [Bool.or_eq_true, lt_iff, eq_iff]
  constructor
  · rintro (⟨x, hx, y, hy, h⟩ | ⟨x, hx, y, hy, h⟩)
    · exact ⟨x, hx, y, hy, h.le⟩
    · exact ⟨x, hx, y, hy, h.le⟩
  · rintro ⟨x, hx, y, hy, h⟩
    rcases h.lt_or_eq with h | h
    · exact Or.inl ⟨x, hx, y, hy, h⟩
    · exact Or.inr ⟨x, hx, y, hy, h⟩

omit [LinearOrder β] in
include eq_iff in
theorem isNaN_iff_of_rank (a : α) : Scalar.isNaN a = false ↔ ∃ x, x ∈ rank a := by
  unfold Scalar.isNaN
  rw [Bool.not_eq_false', eq_iff]
  exact ⟨fun ⟨x, hx, _⟩ => ⟨x, hx⟩, fun ⟨x, hx⟩ => ⟨x, hx, x, hx, rfl⟩⟩

include lt_iff eq_iff in
/-- Scalars are ordered if every number but the NaNs has a rank in some linear order by which it is
compared. -/
theorem orderedScalar_of_rank (zero top : β) (zero_lt : zero < top)
    (rank_zero : rank Scalar.zero = some zero) (rank_inf : rank Scalar.inf = some top)
    (le_top : ∀ a, ∀ x ∈ rank a, x ≤ top)
    (lt_top : ∀ a, Scalar.isFinite a → ∃ x ∈ rank a, x < top)
    (isFinite : ∀ a, ∀ x ∈ rank a, zero ≤ x → x < top → Scalar.isFinite a) :
    OrderedScalar α := by
  have le_iff := le_iff_of_rank lt_iff eq_iff
  have number_iff := isNaN_iff_of_rank eq_iff
  constructor
  · intro a b c hab hbc
    rw [le_iff] at *
    obtain ⟨x, hx, y, hy, hxy⟩ := hab
    obtain ⟨y', hy', z, hz, hyz⟩ := hbc
    obtain rfl := Option.mem_unique hy hy'
    exact ⟨x, hx, z, hz, hxy.trans hyz⟩
  · intro a b ha hb
    rw [number_iff] at ha hb
    obtain ⟨x, hx⟩ := ha
    obtain ⟨y, hy⟩ := hb
    rw [le_iff, le_iff]
    exact (le_total x y).imp (fun h => ⟨x, hx, y, hy, h⟩) fun h => ⟨y, hy, x, hx, h⟩
  · intro a b
    rw [lt_iff, le_iff, le_iff]
    constructor
    · rintro ⟨x, hx, y, hy, h⟩
      refine ⟨⟨x, hx, y, hy, h.le⟩, ?_⟩
      rintro ⟨y', hy', x', hx', h'⟩
      obtain rfl := Option.mem_unique hx hx'
      obtain rfl := Option.mem_unique hy hy'
      exact h.not_ge h'
    · rintro ⟨⟨x, hx, y, hy, -⟩, hn⟩
      exact ⟨x, hx, y, hy, lt_of_not_ge fun h => hn ⟨y, hy, x, hx, h⟩⟩
  · intro a b
    rw [eq_iff, le_iff, le_iff]
    constructor
    · rintro ⟨x, hx, y, hy, rfl⟩
      exact ⟨⟨x, hx, x, hy, le_rfl⟩, ⟨x, hy, x, hx, le_rfl⟩⟩
    · rintro ⟨⟨x, hx, y, hy, h⟩, y', hy', x', hx', h'⟩
      obtain rfl := Option.mem_unique hx hx'
      obtain rfl := Option.mem_unique hy hy'
      exact ⟨x, hx, y, hy, le_antisymm h h'⟩
  · intro a b h
    obtain ⟨x, hx, -⟩ := (le_iff a b).mp h
    exact (number_iff a).mpr ⟨x, hx⟩
  · intro a b h
    obtain ⟨-, -, y, hy, -⟩ := (le_iff a b).mp h
    exact (number_iff b).mpr ⟨y, hy⟩
  · intro a ha
    obtain ⟨x, hx⟩ := (number_iff a).mp ha
    exact (le_iff _ _).mpr ⟨x, hx, top, rank_inf, le_top a x hx⟩
  · exact (lt_iff _ _).mpr ⟨zero, rank_zero, top, rank_inf, zero_lt⟩
  · intro a ha
    obtain ⟨x, hx, h⟩ := lt_top a ha
    exact (lt_iff _ _).mpr ⟨x, hx, top, rank_inf, h⟩
  · intro a h0 h1
    obtain ⟨z, hz, x, hx, hzx⟩ := (le_iff _ _).mp h0
    obtain ⟨x', hx', t, ht, hxt⟩ := (lt_iff _ _).mp h1
    obtain rfl := Option.mem_unique hx hx'
    obtain rfl := Option.mem_unique hz rank_zero
    obtain rfl := Option.mem_unique ht rank_inf
    exact isFinite a x hx hzx hxt

end

end Eikonal
