import Eikonal.Proofs.FastMarching.Nodes
import Eikonal.Proofs.FastMarching.Update

/-! The upwind scheme of a field in exact arithmetic. Values at the nodes around a node give it an
upwind time, which grows with them, and which values above a bound do not bring below the bound.
Values that solve the scheme at every node are the only ones that do, if nothing has slowness
zero. -/

namespace Eikonal.FastMarching

/-! ### The least value beside a node -/

/-- The least of the values of some nodes; infinity if there are none. -/
noncomputable def least (T : Nat → EReal) : List Nat → EReal
  | [] => ⊤
  | k :: ks => min (T k) (least T ks)

section Least

variable {T T' : Nat → EReal} {k : Nat} {ks : List Nat} {t v : EReal}

theorem le_least_iff : t ≤ least T ks ↔ ∀ k ∈ ks, t ≤ T k := by
  induction ks with
  | nil => simp [least]
  | cons k ks ih => rw [least, le_min_iff, ih, List.forall_mem_cons]

theorem least_le (hk : k ∈ ks) : least T ks ≤ T k := le_least_iff.mp le_rfl k hk

theorem least_ne_bot (h : ∀ k ∈ ks, T k ≠ ⊥) : least T ks ≠ ⊥ := by
  induction ks with
  | nil => simp [least]
  | cons k ks ih =>
    obtain ⟨hk, hks⟩ := List.forall_mem_cons.mp h
    rw [least]
    rcases min_choice (T k) (least T ks) with hm | hm
    · rwa [hm]
    · rw [hm]
      exact ih hks

theorem least_mono (h : ∀ k ∈ ks, T k ≤ T' k) : least T ks ≤ least T' ks :=
  le_least_iff.mpr fun k hk => (least_le hk).trans (h k hk)

/-- Values above a bound do not count below it. -/
theorem min_least_congr (h : ∀ k ∈ ks, min (T k) v = min (T' k) v) :
    min (least T ks) v = min (least T' ks) v := by
  induction ks with
  | nil => rfl
  | cons k ks ih =>
    obtain ⟨hk, hks⟩ := List.forall_mem_cons.mp h
    have hcut : ∀ a b : EReal, min (min a b) v = min (min a v) (min b v) := fun a b => by
      rw [min_min_min_comm, min_self]
    rw [least, least, hcut, hk, ih hks, ← hcut]

end Least

namespace Field

/-- A field of finite slowness, with steps above zero. -/
structure Regular (f : Field EReal) : Prop where
  dx_pos : 0 < f.steps.dx
  dx_lt_top : f.steps.dx < ⊤
  dy_pos : 0 < f.steps.dy
  dy_lt_top : f.steps.dy < ⊤
  slowness_nonneg : ∀ s ∈ f.slowness, 0 ≤ s
  slowness_lt_top : ∀ s ∈ f.slowness, s < ⊤

noncomputable def slownessAt (f : Field EReal) (k : Nat) : ℝ :=
  (f.slowness.getD k Scalar.one).toReal

/-- How steep the values make a node at time `t`. -/
noncomputable def steepness (f : Field EReal) (T : Nat → EReal) (k : Nat) (t : ℝ) : ℝ :=
  FastMarching.steepness f.steps.dx.toReal f.steps.dy.toReal t (least T (f.beside k))
    (least T (f.aboveBelow k))

/-- The arrival at a node from the values around it; infinity if there is nothing to come from. -/
noncomputable def upwindTime (f : Field EReal) (T : Nat → EReal) (k : Nat) : EReal :=
  match arrival? f.steps (f.slowness.getD k Scalar.one) (least T (f.beside k))
      (least T (f.aboveBelow k)) with
  | .ok (some t) => t
  | _ => ⊤

variable {f : Field EReal} {T T' : Nat → EReal} {k n : Nat} {t : ℝ} {v : EReal}

theorem least_beside_ne_bot (hT : ∀ n ∈ f.around k, T n ≠ ⊥) : least T (f.beside k) ≠ ⊥ :=
  least_ne_bot fun n hn => hT n (mem_around.mpr (Or.inr hn))

theorem least_aboveBelow_ne_bot (hT : ∀ n ∈ f.around k, T n ≠ ⊥) :
    least T (f.aboveBelow k) ≠ ⊥ :=
  least_ne_bot fun n hn => hT n (mem_around.mpr (Or.inl hn))

namespace Regular

variable (hf : f.Regular)
include hf

theorem coe_dx : ((f.steps.dx.toReal : ℝ) : EReal) = f.steps.dx :=
  EReal.coe_toReal hf.dx_lt_top.ne (ne_bot_of_gt hf.dx_pos)

theorem coe_dy : ((f.steps.dy.toReal : ℝ) : EReal) = f.steps.dy :=
  EReal.coe_toReal hf.dy_lt_top.ne (ne_bot_of_gt hf.dy_pos)

theorem toReal_dx_pos : 0 < f.steps.dx.toReal := EReal.toReal_pos hf.dx_pos hf.dx_lt_top.ne

theorem toReal_dy_pos : 0 < f.steps.dy.toReal := EReal.toReal_pos hf.dy_pos hf.dy_lt_top.ne

theorem slowness_range (k : Nat) :
    0 ≤ f.slowness.getD k Scalar.one ∧ f.slowness.getD k Scalar.one < ⊤ := by
  by_cases hk : k < f.slowness.size
  · rw [Array.getD_eq_getD_getElem?, Array.getElem?_eq_getElem hk]
    exact ⟨hf.slowness_nonneg _ (Array.getElem_mem hk), hf.slowness_lt_top _ (Array.getElem_mem hk)⟩
  · rw [Array.getD_eq_getD_getElem?, Array.getElem?_eq_none (not_lt.mp hk)]
    exact ⟨zero_le_one, EReal.coe_lt_top 1⟩

theorem coe_slownessAt (k : Nat) :
    ((f.slownessAt k : ℝ) : EReal) = f.slowness.getD k Scalar.one := by
  obtain ⟨h0, h1⟩ := hf.slowness_range k
  exact EReal.coe_toReal h1.ne (ne_bot_of_le_ne_bot (EReal.bot_lt_zero.ne') h0)

theorem slownessAt_nonneg (k : Nat) : 0 ≤ f.slownessAt k :=
  EReal.toReal_nonneg (hf.slowness_range k).1

/-- The update succeeds, and gives the last time at which the node is not too steep. -/
theorem exists_arrival? (hT : ∀ n ∈ f.around k, T n ≠ ⊥) :
    ∃ o, arrival? f.steps (f.slowness.getD k Scalar.one) (least T (f.beside k))
      (least T (f.aboveBelow k)) = .ok o ∧ o.getD ⊤ = f.upwindTime T k ∧
        ∀ t : ℝ, (t : EReal) ≤ f.upwindTime T k ↔ f.steepness T k t ≤ f.slownessAt k ^ 2 := by
  obtain ⟨o, ho, ht⟩ := FastMarching.exists_arrival? hf.toReal_dx_pos hf.toReal_dy_pos
    (hf.slownessAt_nonneg k) (least_beside_ne_bot hT) (least_aboveBelow_ne_bot hT)
  rw [hf.coe_dx, hf.coe_dy, hf.coe_slownessAt] at ho
  have hup : o.getD ⊤ = f.upwindTime T k := by
    unfold upwindTime
    rw [ho]
    cases o <;> rfl
  exact ⟨o, ho, hup, hup ▸ ht⟩

theorem coe_le_upwindTime_iff (hT : ∀ n ∈ f.around k, T n ≠ ⊥) :
    (t : EReal) ≤ f.upwindTime T k ↔ f.steepness T k t ≤ f.slownessAt k ^ 2 := by
  obtain ⟨o, -, -, ht⟩ := hf.exists_arrival? hT
  exact ht t

theorem steepness_anti (hT : ∀ n ∈ f.around k, T n ≠ ⊥) (h : ∀ n ∈ f.around k, T n ≤ T' n) :
    f.steepness T' k t ≤ f.steepness T k t := by
  refine FastMarching.steepness_anti hf.toReal_dx_pos hf.toReal_dy_pos (least_beside_ne_bot hT)
    (least_aboveBelow_ne_bot hT) (least_mono fun n hn => ?_) (least_mono fun n hn => ?_)
  · exact h n (mem_around.mpr (Or.inr hn))
  · exact h n (mem_around.mpr (Or.inl hn))

omit hf in
/-- At time `t` only the values before `t` count. -/
theorem steepness_congr (h : ∀ n ∈ f.around k, min (T n) t = min (T' n) t) :
    f.steepness T k t = f.steepness T' k t :=
  FastMarching.steepness_congr (min_least_congr fun n hn => h n (mem_around.mpr (Or.inr hn)))
    (min_least_congr fun n hn => h n (mem_around.mpr (Or.inl hn)))

theorem steepness_anti_of_min (hT : ∀ n ∈ f.around k, T n ≠ ⊥)
    (h : ∀ n ∈ f.around k, min (T n) t ≤ min (T' n) t) :
    f.steepness T' k t ≤ f.steepness T k t := by
  have hcut : ∀ T : Nat → EReal, f.steepness T k t = f.steepness (fun n => min (T n) t) k t :=
    fun T => steepness_congr fun n _ => by rw [min_assoc, min_self]
  rw [hcut T, hcut T']
  exact hf.steepness_anti (fun n hn => by simp [hT n hn]) h

theorem upwindTime_mono (hT : ∀ n ∈ f.around k, T n ≠ ⊥) (h : ∀ n ∈ f.around k, T n ≤ T' n) :
    f.upwindTime T k ≤ f.upwindTime T' k := by
  have hT' : ∀ n ∈ f.around k, T' n ≠ ⊥ := fun n hn => ne_bot_of_le_ne_bot (hT n hn) (h n hn)
  refine EReal.ge_of_forall_gt_iff_ge.mp fun t ht => ?_
  rw [hf.coe_le_upwindTime_iff hT']
  exact (hf.steepness_anti hT h).trans ((hf.coe_le_upwindTime_iff hT).mp ht.le)

/-- Up to a bound only the values up to the bound count. -/
theorem min_upwindTime_congr (hT : ∀ n ∈ f.around k, T n ≠ ⊥)
    (hT' : ∀ n ∈ f.around k, T' n ≠ ⊥) (h : ∀ n ∈ f.around k, min (T n) v = min (T' n) v) :
    min (f.upwindTime T k) v = min (f.upwindTime T' k) v := by
  have hle : ∀ {T T' : Nat → EReal}, (∀ n ∈ f.around k, T n ≠ ⊥) →
      (∀ n ∈ f.around k, T' n ≠ ⊥) → (∀ n ∈ f.around k, min (T n) v = min (T' n) v) →
      min (f.upwindTime T k) v ≤ min (f.upwindTime T' k) v := by
    intro T T' hT hT' h
    refine EReal.ge_of_forall_gt_iff_ge.mp fun t ht => ?_
    obtain ⟨hup, hv⟩ := lt_min_iff.mp ht
    refine le_min ?_ hv.le
    rw [hf.coe_le_upwindTime_iff hT', ← steepness_congr (T := T)]
    · exact (hf.coe_le_upwindTime_iff hT).mp hup.le
    · intro n hn
      have := h n hn
      rw [← min_eq_right hv.le, ← min_assoc, this, min_assoc]
  exact le_antisymm (hle hT hT' h) (hle hT' hT fun n hn => (h n hn).symm)

/-- A node is not reached before all the nodes around it. -/
theorem le_upwindTime (hT : ∀ n ∈ f.around k, T n ≠ ⊥) (h : ∀ n ∈ f.around k, v ≤ T n) :
    v ≤ f.upwindTime T k := by
  refine EReal.ge_of_forall_gt_iff_ge.mp fun t ht => ?_
  have hle : ∀ n ∈ f.around k, (t : EReal) ≤ T n := fun n hn => ht.le.trans (h n hn)
  have hzero : f.steepness T k t = 0 :=
    steepness_eq_zero (le_least_iff.mpr fun n hn => hle n (mem_around.mpr (Or.inr hn)))
      (le_least_iff.mpr fun n hn => hle n (mem_around.mpr (Or.inl hn)))
  rw [hf.coe_le_upwindTime_iff hT, hzero]
  positivity

end Regular

variable {A B : Nat → EReal} {seeds : Array Bool}

theorem Regular.upwindTime_lt_top (hf : f.Regular) (hT : ∀ n ∈ f.around k, T n ≠ ⊥)
    (hn : n ∈ f.around k) (hlt : T n < ⊤) : f.upwindTime T k < ⊤ := by
  have hx : ((T n).toReal : EReal) = T n := EReal.coe_toReal hlt.ne (hT n hn)
  have hs := hf.slownessAt_nonneg k
  have hsteep : ∃ t : ℝ, f.slownessAt k ^ 2 < f.steepness T k t := by
    rcases mem_around.mp hn with h | h
    · refine ⟨(T n).toReal + (f.slownessAt k + 1) * f.steps.dy.toReal, ?_⟩
      rw [steepness, steepness_comm]
      exact sq_lt_steepness hf.toReal_dy_pos hs ((least_le h).trans hx.ge)
        (least_aboveBelow_ne_bot hT)
    · exact ⟨_, sq_lt_steepness hf.toReal_dx_pos hs ((least_le h).trans hx.ge)
        (least_beside_ne_bot hT)⟩
  obtain ⟨t, ht⟩ := hsteep
  have := (hf.coe_le_upwindTime_iff hT).not.mpr (not_le.mpr ht)
  exact (not_le.mp this).trans (EReal.coe_lt_top t)

/-! ### Comparison -/

/-- Values that make no node too steep are nowhere above values that make no node too flat, if they
are not above them on the seeds. -/
theorem Regular.le_of_steepness (hf : f.Regular) (seeds : Array Bool)
    (hs : ∀ k < f.size, 0 < f.slownessAt k)
    (hA : ∀ k < f.size, A k ≠ ⊤ ∧ A k ≠ ⊥) (hB : ∀ k < f.size, B k ≠ ⊤ ∧ B k ≠ ⊥)
    (hseed : ∀ k < f.size, seeds.getD k false → A k ≤ B k)
    (hlow : ∀ k < f.size, seeds.getD k false = false →
      f.steepness A k (A k).toReal ≤ f.slownessAt k ^ 2)
    (hhigh : ∀ k < f.size, seeds.getD k false = false →
      f.slownessAt k ^ 2 ≤ f.steepness B k (B k).toReal) : ∀ k < f.size, A k ≤ B k := by
  by_contra hne
  push Not at hne
  obtain ⟨k0, hk0, hlt0⟩ := hne
  -- the node of the least value of `B` among those where `A` is above it
  obtain ⟨k, hk, hmin⟩ := Finset.exists_min_image
    ((Finset.range f.size).filter fun k => B k < A k) B ⟨k0, by simp [hk0, hlt0]⟩
  simp only [Finset.mem_filter, Finset.mem_range] at hk hmin
  obtain ⟨hk, hlt⟩ := hk
  have hsk : seeds.getD k false = false := by
    rw [Bool.eq_false_iff]
    intro h
    exact absurd (hseed k hk h) (not_le.mpr hlt)
  have hcoe : ((B k).toReal : EReal) = B k := EReal.coe_toReal (hB k hk).1 (hB k hk).2
  have haround : ∀ n ∈ f.around k, A n ≠ ⊥ := fun n hn => (hA n (lt_of_mem_around hk hn)).2
  -- around it `A` is not above `B` where `B` counts, so `A` makes the node no less steep
  have hsteep : f.steepness B k (B k).toReal ≤ f.steepness A k (B k).toReal := by
    refine hf.steepness_anti_of_min haround fun n hn => le_min ?_ (min_le_right _ _)
    rcases lt_or_ge (B n) (A n) with h | h
    · rw [hcoe]
      exact (min_le_right _ _).trans (hmin n ⟨lt_of_mem_around hk hn, h⟩)
    · exact (min_le_left _ _).trans h
  have hstrict : f.steepness A k (B k).toReal < f.steepness A k (A k).toReal := by
    refine steepness_lt hf.toReal_dx_pos hf.toReal_dy_pos
      (least_beside_ne_bot haround) (least_aboveBelow_ne_bot haround)
      (lt_of_lt_of_le (pow_pos (hs k hk) 2) ((hhigh k hk hsk).trans hsteep))
      (EReal.coe_lt_coe_iff.mp ?_)
    rwa [hcoe, EReal.coe_toReal (hA k hk).1 (hA k hk).2]
  exact absurd ((hhigh k hk hsk).trans hsteep) (not_le.mpr (hstrict.trans_le (hlow k hk hsk)))

/-! ### Solutions -/

/-- Finite values that vanish on the seeds and solve the upwind equation elsewhere. -/
structure IsSolution (f : Field EReal) (seeds : Array Bool) (T : Nat → EReal) : Prop where
  ne_top : ∀ k < f.size, T k ≠ ⊤
  ne_bot : ∀ k < f.size, T k ≠ ⊥
  seed : ∀ k < f.size, seeds.getD k false → T k = 0
  solves : ∀ k < f.size, seeds.getD k false = false →
    f.steepness T k (T k).toReal = f.slownessAt k ^ 2

/-- Finite values that agree with the upwind times are a solution. -/
theorem Regular.isSolution (hf : f.Regular) (htop : ∀ k < f.size, T k ≠ ⊤)
    (hbot : ∀ k < f.size, T k ≠ ⊥) (hseed : ∀ k < f.size, seeds.getD k false → T k = 0)
    (hup : ∀ k < f.size, seeds.getD k false = false → T k = f.upwindTime T k) :
    f.IsSolution seeds T := by
  refine ⟨htop, hbot, hseed, fun k hk hs => ?_⟩
  have hT : ∀ n ∈ f.around k, T n ≠ ⊥ := fun n hn => hbot n (lt_of_mem_around hk hn)
  refine steepness_eq_of_le_iff (least_beside_ne_bot hT) (least_aboveBelow_ne_bot hT) fun t => ?_
  rw [← EReal.coe_le_coe_iff, EReal.coe_toReal (htop k hk) (hbot k hk), hup k hk hs]
  exact hf.coe_le_upwindTime_iff hT

namespace IsSolution

theorem ne_top_and_ne_bot (hA : f.IsSolution seeds A) :
    ∀ k < f.size, A k ≠ ⊤ ∧ A k ≠ ⊥ := fun k hk => ⟨hA.ne_top k hk, hA.ne_bot k hk⟩

variable (hA : f.IsSolution seeds A) (hB : f.IsSolution seeds B)
include hA hB

/-- Of two solutions neither is above the other anywhere. -/
theorem le (hf : f.Regular) (hs : ∀ k < f.size, 0 < f.slownessAt k) :
    ∀ k < f.size, A k ≤ B k := by
  refine hf.le_of_steepness seeds hs hA.ne_top_and_ne_bot hB.ne_top_and_ne_bot
    (fun k hk h => ?_) (fun k hk h => (hA.solves k hk h).le) fun k hk h => (hB.solves k hk h).ge
  rw [hA.seed k hk h, hB.seed k hk h]

theorem unique (hf : f.Regular) (hs : ∀ k < f.size, 0 < f.slownessAt k) :
    ∀ k < f.size, A k = B k := fun k hk =>
  le_antisymm (hA.le hB hf hs k hk) (hB.le hA hf hs k hk)

end IsSolution

end Field

end Eikonal.FastMarching
