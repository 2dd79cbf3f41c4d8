import Mathlib
import Eikonal.Proofs.Scalar.Exact
import Eikonal.Solver.Tentative

/-! Sectors of the plane and the cyclic order of angles. Angles are cut open at `π`: of ascending
ones each is followed by the next, and the last by the first. A direction lies in the sector between
two others, the turn from one to the other being below a half turn, if its angle lies between
theirs, or outside them where the sector holds the cut. So what follows next is what has an empty
sector before it. -/

namespace Eikonal

open Matrix Real

/-! ### Consecutive angles -/

section Consecutive

variable {κ : Type} {θ : κ → ℝ}

/-- The angle of `k` is the next one after that of `j`, or the first one after the last. -/
def IsNext (θ : κ → ℝ) (l : List κ) (j k : κ) : Prop :=
  (θ j < θ k ∧ ∀ m ∈ l, ¬(θ j < θ m ∧ θ m < θ k)) ∨ (θ k < θ j ∧ ∀ m ∈ l, θ k ≤ θ m ∧ θ m ≤ θ j)

theorem head_le {a : κ} {l : List κ} (h : (a :: l).Pairwise fun a b => θ a < θ b) :
    ∀ m ∈ a :: l, θ a ≤ θ m :=
  List.forall_mem_cons.mpr ⟨le_rfl, fun m hm => ((List.pairwise_cons.mp h).1 m hm).le⟩

/-- Each of some ascending angles is paired with the next one, and the last with `z`. -/
theorem mem_zip_iff {a z : κ} {l : List κ} (h : (a :: l).Pairwise fun a b => θ a < θ b) (j k : κ) :
    (j, k) ∈ (a :: l).zip (l ++ [z]) ↔
      (j ∈ a :: l ∧ k ∈ a :: l ∧ θ j < θ k ∧ ∀ m ∈ a :: l, ¬(θ j < θ m ∧ θ m < θ k)) ∨
        (j ∈ a :: l ∧ (∀ m ∈ a :: l, θ m ≤ θ j) ∧ k = z) := by
  induction l generalizing a with
  | nil =>
    simp only [List.nil_append, List.zip_cons_cons, List.zip_nil_left, List.mem_singleton,
      Prod.mk.injEq, forall_eq]
    constructor
    · rintro ⟨rfl, rfl⟩
      exact Or.inr ⟨rfl, le_rfl, rfl⟩
    · rintro (⟨rfl, rfl, hlt, -⟩ | ⟨rfl, -, rfl⟩)
      · exact absurd hlt (lt_irrefl _)
      · exact ⟨rfl, rfl⟩
  | cons b l ih =>
    obtain ⟨ha, hl⟩ := List.pairwise_cons.mp h
    have hab : θ a < θ b := ha b List.mem_cons_self
    rw [List.cons_append, List.zip_cons_cons, List.mem_cons, ih hl, Prod.mk.injEq]
    constructor
    · rintro (⟨rfl, rfl⟩ | ⟨hj, hk, hlt, hnone⟩ | ⟨hj, hmax, rfl⟩)
      · refine Or.inl ⟨List.mem_cons_self, by simp, hab, List.forall_mem_cons.mpr ⟨by simp, ?_⟩⟩
        exact fun m hm hbetween => (head_le hl m hm).not_gt hbetween.2
      · refine Or.inl ⟨List.mem_cons_of_mem _ hj, List.mem_cons_of_mem _ hk, hlt,
          List.forall_mem_cons.mpr ⟨?_, hnone⟩⟩
        exact fun hbetween => (ha j hj).not_gt hbetween.1
      · exact Or.inr ⟨List.mem_cons_of_mem _ hj,
          List.forall_mem_cons.mpr ⟨(ha j hj).le, hmax⟩, rfl⟩
    · rintro (⟨hj, hk, hlt, hnone⟩ | ⟨hj, hmax, rfl⟩)
      · rcases List.mem_cons.mp hj with rfl | hj'
        · -- nothing lies between `a` and the one after it, so it is that one
          have hk : k ∈ b :: l :=
            (List.mem_cons.mp hk).resolve_left (by rintro rfl; exact hlt.false)
          refine Or.inl ⟨rfl, ?_⟩
          rcases List.mem_cons.mp hk with rfl | hk'
          · rfl
          · exact absurd ⟨hab, (List.pairwise_cons.mp hl).1 k hk'⟩ (hnone b (by simp))
        · have hk : k ∈ b :: l := by
            refine (List.mem_cons.mp hk).resolve_left ?_
            rintro rfl
            exact (ha j hj').not_gt hlt
          exact Or.inr (Or.inl ⟨hj', hk, hlt, (List.forall_mem_cons.mp hnone).2⟩)
      · rcases List.mem_cons.mp hj with rfl | hj
        · exact absurd (hmax b (by simp)) hab.not_ge
        · exact Or.inr (Or.inr ⟨hj, (List.forall_mem_cons.mp hmax).2, rfl⟩)

theorem mem_cyclicPairs_iff {l : List κ} (h : l.Pairwise fun a b => θ a < θ b) (j k : κ) :
    (j, k) ∈ cyclicPairs l ↔ j ∈ l ∧ k ∈ l ∧ IsNext θ l j k := by
  match l with
  | [] => simp [cyclicPairs]
  | [a] =>
    simp only [cyclicPairs, List.not_mem_nil, List.mem_singleton, false_iff]
    rintro ⟨rfl, rfl, hnext⟩
    exact hnext.elim (fun h => h.1.false) fun h => h.1.false
  | a :: b :: rest =>
    have hab : θ a < θ b := (List.pairwise_cons.mp h).1 b List.mem_cons_self
    rw [cyclicPairs, mem_zip_iff h]
    constructor
    · rintro (⟨hj, hk, hnext⟩ | ⟨hj, hmax, rfl⟩)
      · exact ⟨hj, hk, Or.inl hnext⟩
      · exact ⟨hj, List.mem_cons_self, Or.inr ⟨hab.trans_le (hmax b (by simp)),
          fun m hm => ⟨head_le h m hm, hmax m hm⟩⟩⟩
    · rintro ⟨hj, hk, hnext | ⟨-, hrange⟩⟩
      · exact Or.inl ⟨hj, hk, hnext⟩
      · refine Or.inr ⟨hj, fun m hm => (hrange m hm).2, ?_⟩
        refine (List.mem_cons.mp hk).resolve_right fun hk' => ?_
        exact ((List.pairwise_cons.mp h).1 k hk').not_ge (hrange a List.mem_cons_self).1

end Consecutive

/-! ### Sectors -/

section Sector

variable {a b v : Fin 2 → ℝ}

/-- Positive if the turn from `a` to `b` is counter-clockwise and below a half turn. -/
def signedArea (a b : Fin 2 → ℝ) : ℝ := (Matrix.of ![a, b]).det

theorem signedArea_eq (a b : Fin 2 → ℝ) : signedArea a b = a 0 * b 1 - a 1 * b 0 :=
  det_fin_two _

/-- Strictly inside the sector between `a` and `b`. -/
def InSector (a b v : Fin 2 → ℝ) : Prop := ∃ s t : ℝ, 0 < s ∧ 0 < t ∧ v = s • a + t • b

theorem inSector_iff (h : 0 < signedArea a b) :
    InSector a b v ↔ 0 < signedArea a v ∧ 0 < signedArea v b := by
  constructor
  · rintro ⟨s, t, hs, ht, rfl⟩
    have hfirst : signedArea a (s • a + t • b) = t * signedArea a b := by
      simp only [signedArea_eq, Pi.add_apply, Pi.smul_apply, smul_eq_mul]
      ring
    have hsecond : signedArea (s • a + t • b) b = s * signedArea a b := by
      simp only [signedArea_eq, Pi.add_apply, Pi.smul_apply, smul_eq_mul]
      ring
    rw [hfirst, hsecond]
    exact ⟨mul_pos ht h, mul_pos hs h⟩
  · rintro ⟨hfirst, hsecond⟩
    refine ⟨signedArea v b / signedArea a b, signedArea a v / signedArea a b, div_pos hsecond h,
      div_pos hfirst h, ?_⟩
    have hcramer : signedArea a b • v = signedArea v b • a + signedArea a v • b := by
      ext i
      fin_cases i <;> simp only [signedArea_eq, Fin.zero_eta, Fin.mk_one, Pi.add_apply,
        Pi.smul_apply, smul_eq_mul] <;> ring
    rw [div_eq_inv_mul, div_eq_inv_mul, mul_smul, mul_smul, ← smul_add, ← hcramer,
      inv_smul_smul₀ h.ne']

/-! ### Angles of directions -/

/-- The angle of a direction, greater than `-π` and at most `π`. -/
noncomputable def angleOf (v : Fin 2 → ℝ) : ℝ := (Vec.ofReal v).angle.toReal

theorem angleOf_eq (v : Fin 2 → ℝ) : angleOf v = Complex.arg ⟨v 0, v 1⟩ := by
  rw [angleOf, Exact.angle_ofReal, EReal.toReal_coe]

theorem coe_angleOf (v : Fin 2 → ℝ) : (Vec.ofReal v).angle = angleOf v := by
  rw [angleOf_eq, Exact.angle_ofReal]

theorem angleOf_range (v : Fin 2 → ℝ) : -π < angleOf v ∧ angleOf v ≤ π := by
  rw [angleOf_eq]
  exact Complex.arg_mem_Ioc _

theorem sameRay_of_angleOf_eq (h : angleOf a = angleOf b) : SameRay ℝ a b := by
  rw [angleOf_eq, angleOf_eq] at h
  have hray : SameRay ℝ (⟨a 0, a 1⟩ : ℂ) ⟨b 0, b 1⟩ := Complex.sameRay_of_arg_eq h
  have hentries : ∀ v : Fin 2 → ℝ, ![v 0, v 1] = v := fun v => by
    ext i
    fin_cases i <;> rfl
  simpa [Complex.coe_basisOneI_repr, hentries] using
    hray.map Complex.basisOneI.equivFun.toLinearMap

theorem norm_eq_sqrt (v : Fin 2 → ℝ) : ‖(⟨v 0, v 1⟩ : ℂ)‖ = √(v ⬝ᵥ v) := by
  rw [Complex.norm_def, Complex.normSq_mk]
  simp [dotProduct, Fin.sum_univ_two]

theorem sqrt_mul_cos_angleOf (v : Fin 2 → ℝ) : √(v ⬝ᵥ v) * cos (angleOf v) = v 0 := by
  rw [← norm_eq_sqrt, angleOf_eq, Complex.norm_mul_cos_arg]

theorem sqrt_mul_sin_angleOf (v : Fin 2 → ℝ) : √(v ⬝ᵥ v) * sin (angleOf v) = v 1 := by
  rw [← norm_eq_sqrt, angleOf_eq, Complex.norm_mul_sin_arg]

theorem signedArea_eq_sin (a b : Fin 2 → ℝ) :
    signedArea a b = √(a ⬝ᵥ a) * √(b ⬝ᵥ b) * sin (angleOf b - angleOf a) := by
  rw [signedArea_eq, sin_sub, ← sqrt_mul_cos_angleOf a, ← sqrt_mul_sin_angleOf a,
    ← sqrt_mul_cos_angleOf b, ← sqrt_mul_sin_angleOf b]
  ring

theorem signedArea_pos_iff (ha : a ≠ 0) (hb : b ≠ 0) :
    0 < signedArea a b ↔ 0 < sin (angleOf b - angleOf a) := by
  have hlength : ∀ {v : Fin 2 → ℝ}, v ≠ 0 → 0 < √(v ⬝ᵥ v) := fun hv =>
    sqrt_pos.mpr (by simpa using dotProduct_star_self_pos_iff.mpr hv)
  rw [signedArea_eq_sin]
  exact mul_pos_iff_of_pos_left (mul_pos (hlength ha) (hlength hb))

theorem ne_zero_of_signedArea_pos (h : 0 < signedArea a b) : a ≠ 0 ∧ b ≠ 0 := by
  constructor <;> rintro rfl <;> simp [signedArea_eq] at h

end Sector

/-- The sine of a difference of angles is positive if the turn is below a half turn, either without
passing `π` or past it. -/
theorem sin_sub_pos_iff {α β : ℝ} (hα : -π < α ∧ α ≤ π) (hβ : -π < β ∧ β ≤ π) :
    0 < sin (β - α) ↔ (α < β ∧ β < α + π) ∨ β + π < α := by
  constructor
  · intro h
    by_contra! hno
    rcases le_or_gt β α with hle | hlt
    · exact h.not_ge (sin_nonpos_of_nonpos_of_neg_pi_le (by linarith) (by linarith [hno.2]))
    · have hwide := hno.1 hlt
      have hneg : sin (β - α) = -sin (β - α - π) := by rw [sin_sub_pi, neg_neg]
      rw [hneg] at h
      linarith [sin_nonneg_of_nonneg_of_le_pi (x := β - α - π) (by linarith) (by linarith)]
  · rintro (⟨hlt, hlt'⟩ | hlt)
    · exact sin_pos_of_pos_of_lt_pi (by linarith) (by linarith)
    · rw [← sin_add_two_pi]
      exact sin_pos_of_pos_of_lt_pi (by linarith) (by linarith)

/-- Between two such angles lie those between them, or, past `π`, those outside. -/
theorem between_iff {α β ν : ℝ} (hα : -π < α ∧ α ≤ π) (hβ : -π < β ∧ β ≤ π) (hν : -π < ν ∧ ν ≤ π)
    (hturn : 0 < sin (β - α)) : 0 < sin (ν - α) ∧ 0 < sin (β - ν) ↔
      (α < β ∧ α < ν ∧ ν < β) ∨ (β < α ∧ (α < ν ∨ ν < β)) := by
  rw [sin_sub_pos_iff hα hβ] at hturn
  rw [sin_sub_pos_iff hα hν, sin_sub_pos_iff hν hβ]
  have hπ := pi_pos
  grind

theorem isNext_iff {κ : Type} {θ : κ → ℝ} {l : List κ} (hr : ∀ d ∈ l, -π < θ d ∧ θ d ≤ π) {j k : κ}
    (hj : j ∈ l) (hk : k ∈ l) (hturn : 0 < sin (θ k - θ j)) :
    IsNext θ l j k ↔
      ∀ m ∈ l, m ≠ j → m ≠ k → ¬(0 < sin (θ m - θ j) ∧ 0 < sin (θ k - θ m)) := by
  have hbetween := fun m (hm : m ∈ l) => between_iff (hr j hj) (hr k hk) (hr m hm) hturn
  constructor
  · intro hnext m hm _ _
    rw [hbetween m hm]
    rintro (⟨hlt, hin⟩ | ⟨hlt, hout⟩) <;> rcases hnext with ⟨hlt', hnone⟩ | ⟨hlt', hrange⟩
    · exact hnone m hm hin
    · exact hlt.not_gt hlt'
    · exact hlt.not_gt hlt'
    · exact hout.elim (hrange m hm).2.not_gt (hrange m hm).1.not_gt
  · intro hnone
    have hne : θ j ≠ θ k := fun h => by simp [h] at hturn
    rcases hne.lt_or_gt with hlt | hlt
    · refine Or.inl ⟨hlt, fun m hm hin => ?_⟩
      refine hnone m hm ?_ ?_ ((hbetween m hm).mpr (Or.inl ⟨hlt, hin⟩))
      · rintro rfl
        exact hin.1.false
      · rintro rfl
        exact hin.2.false
    · refine Or.inr ⟨hlt, fun m hm => ?_⟩
      by_contra hrange
      rw [not_and_or, not_le, not_le] at hrange
      refine hnone m hm ?_ ?_ ((hbetween m hm).mpr (Or.inr ⟨hlt, hrange.symm⟩))
      · rintro rfl
        exact hrange.elim hlt.not_gt (lt_irrefl _)
      · rintro rfl
        exact hrange.elim (lt_irrefl _) hlt.not_gt

end Eikonal
