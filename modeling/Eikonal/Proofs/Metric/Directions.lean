import Mathlib
import Eikonal.Metric.Build
import Eikonal.Proofs.Metric.Definite
import Eikonal.Proofs.Traversal

/-! Metric fields from principal directions, in exact arithmetic. A unit vector and its quarter turn
are at right angles, so the tensor that is made of them has the two squared slownesses as its
eigenvalues. It passes every check, it measures a step along either vector by the slowness of that
vector, and its ratio is that of the slownesses. -/

namespace Eikonal

open Matrix

/-! ### Slownesses -/

namespace Slowness

/-- The slownesses that are given. -/
def values {α : Type} : Slowness α → Array α
  | uniform s => #[s]
  | perCell l => l

/-- There is one slowness for all of `n` cells, or one for each. -/
def Fits {α : Type} (s : Slowness α) (n : ℕ) : Prop := s.values.size = 1 ∨ s.values.size = n

/-- Slownesses of real numbers. -/
def ofReal : Slowness ℝ → Slowness EReal
  | uniform s => uniform s
  | perCell l => perCell (l.map Real.toEReal)

theorem values_ofReal (s : Slowness ℝ) : s.ofReal.values = s.values.map Real.toEReal := by
  cases s with
  | uniform s => simp [ofReal, values]
  | perCell l => rfl

/-- One slowness for all cells weighs as a list of one: no square of a real number overflows. -/
theorem weigh_ofReal (s : Slowness ℝ) (m : Array (Tensor EReal)) :
    s.ofReal.weigh m = NdArray.zipSpread (fun x t => t.scale (x * x)) s.ofReal.values m := by
  cases s with
  | uniform s =>
    have hsquare : Scalar.isFinite ((s : EReal) * s) := by
      rw [← EReal.coe_mul, Exact.isFinite_iff]
      exact ⟨EReal.coe_ne_top _, EReal.coe_ne_bot _⟩
    rw [ofReal, values, NdArray.zipSpread_singleton_left, weigh, hsquare, Bool.not_true,
      Bool.and_false]
    rfl
  | perCell l => rfl

theorem exists_weigh {s : Slowness ℝ} {m : Array (Tensor EReal)} (h : s.Fits m.size) :
    ∃ out, s.ofReal.weigh m = .ok out ∧ out.size = m.size := by
  rw [weigh_ofReal]
  apply NdArray.exists_zipSpread
  rwa [values_ofReal, Array.size_map]

/-- The weighed tensor of a cell is that of its slowness and of its tensor. -/
theorem item?_weigh {s : Slowness ℝ} {m out : Array (Tensor EReal)}
    (h : s.ofReal.weigh m = .ok out) (c : ℕ) : NdArray.item? out c =
      Option.map₂ (fun (x : ℝ) t => t.scale ((x : EReal) * x)) (NdArray.item? s.values c)
        (NdArray.item? m c) := by
  rw [weigh_ofReal] at h
  rw [NdArray.item?_zipSpread h, values_ofReal, NdArray.item?_map, Option.map₂_map_left]

end Slowness

/-! ### Tensors of two slownesses -/

/-- The unit vector along a direction, or along the x axis if the direction is zero. -/
noncomputable def unitAlong (w : Fin 2 → ℝ) : Fin 2 → ℝ :=
  if w = 0 then ![1, 0] else (√(w ⬝ᵥ w))⁻¹ • w

def quarterTurn (u : Fin 2 → ℝ) : Fin 2 → ℝ := !![0, -1; 1, 0] *ᵥ u

theorem quarterTurn_eq (u : Fin 2 → ℝ) : quarterTurn u = ![-u 1, u 0] := by
  ext i
  fin_cases i <;> simp [quarterTurn, mulVec, dotProduct]

theorem dotProduct_self_pos {d : Fin 2 → ℝ} (hd : d ≠ 0) : 0 < d ⬝ᵥ d := by
  simpa only [star_trivial] using dotProduct_self_star_pos_iff.mpr hd

theorem unitAlong_dotProduct_self (w : Fin 2 → ℝ) : unitAlong w ⬝ᵥ unitAlong w = 1 := by
  unfold unitAlong
  split
  · simp
  · rename_i hw
    have hpos := dotProduct_self_pos hw
    rw [smul_dotProduct, dotProduct_smul, smul_eq_mul, smul_eq_mul, ← mul_assoc, ← sq, inv_pow,
      Real.sq_sqrt hpos.le, inv_mul_cancel₀ hpos.ne']

theorem direction_ofReal (w : Fin 2 → ℝ) :
    MetricField.direction (Vec.ofReal w) = Vec.ofReal (unitAlong w) := by
  unfold MetricField.direction MetricField.unitIn unitAlong
  rw [Exact.norm_ofReal, Exact.zero_eq, Exact.one_eq]
  by_cases hw : w = 0
  · rw [if_neg (by simp [hw]), if_pos hw]
    simp [Vec.ofReal]
  · have hnorm : (0 : EReal) < ((√(w ⬝ᵥ w) : ℝ) : EReal) :=
      EReal.coe_pos.mpr (Real.sqrt_pos.mpr (dotProduct_self_pos hw))
    rw [if_pos (Exact.lt_iff.mpr hnorm), if_neg hw]
    simp only [Vec.ofReal, ← EReal.coe_div, Pi.smul_apply, smul_eq_mul, div_eq_inv_mul]

theorem turned_ofReal (u : Fin 2 → ℝ) : (Vec.ofReal u).turned = Vec.ofReal (quarterTurn u) := by
  simp [Vec.turned, Vec.ofReal, quarterTurn_eq]

section QuarterTurn

variable {u : Fin 2 → ℝ}

theorem dotProduct_quarterTurn (u : Fin 2 → ℝ) : u ⬝ᵥ quarterTurn u = 0 := by
  simp only [dotProduct, Fin.sum_univ_two, quarterTurn_eq, cons_val_zero, cons_val_one]
  ring

theorem quarterTurn_dotProduct_self (u : Fin 2 → ℝ) : quarterTurn u ⬝ᵥ quarterTurn u = u ⬝ᵥ u := by
  simp only [dotProduct, Fin.sum_univ_two, quarterTurn_eq, cons_val_zero, cons_val_one]
  ring

/-- The parts of a vector along a unit vector and across it make up its length. -/
theorem sq_add_sq_quarterTurn (hu : u ⬝ᵥ u = 1) (d : Fin 2 → ℝ) :
    (u ⬝ᵥ d) ^ 2 + (quarterTurn u ⬝ᵥ d) ^ 2 = d ⬝ᵥ d := by
  simp only [dotProduct, Fin.sum_univ_two, quarterTurn_eq, cons_val_zero, cons_val_one] at hu ⊢
  linear_combination (d 0 ^ 2 + d 1 ^ 2) * hu

end QuarterTurn

namespace Tensor

theorem scale_outer_ofReal (x : ℝ) (u : Fin 2 → ℝ) :
    (outer (Vec.ofReal u)).scale ((x : EReal) * x) = ofReal (x ^ 2 • vecMulVec u u) := by
  simp [scale, outer, Vec.ofReal, ofReal, vecMulVec_apply, sq]

theorem ofReal_add (M N : Matrix (Fin 2) (Fin 2) ℝ) : ofReal M + ofReal N = ofReal (M + N) := by
  show (⟨_, _, _, _⟩ : Tensor EReal) = ⟨_, _, _, _⟩
  simp [ofReal]

section Principal

variable {s r : ℝ} {u : Fin 2 → ℝ}

/-- The tensor with slowness `s` along `u` and slowness `r` across it. -/
def principal (s r : ℝ) (u : Fin 2 → ℝ) : Matrix (Fin 2) (Fin 2) ℝ :=
  s ^ 2 • vecMulVec u u + r ^ 2 • vecMulVec (quarterTurn u) (quarterTurn u)

theorem form_principal (s r : ℝ) (u d : Fin 2 → ℝ) : d ⬝ᵥ principal s r u *ᵥ d =
    s ^ 2 * (u ⬝ᵥ d) ^ 2 + r ^ 2 * (quarterTurn u ⬝ᵥ d) ^ 2 := by
  have houter : ∀ w : Fin 2 → ℝ, d ⬝ᵥ vecMulVec w w *ᵥ d = (w ⬝ᵥ d) ^ 2 := by
    intro w
    rw [vecMulVec_mulVec, op_smul_eq_smul, dotProduct_smul, dotProduct_comm d, smul_eq_mul, sq]
  rw [principal, add_mulVec, dotProduct_add, smul_mulVec, smul_mulVec, dotProduct_smul,
    dotProduct_smul, houter, houter, smul_eq_mul, smul_eq_mul]

theorem isHermitian_principal (s r : ℝ) (u : Fin 2 → ℝ) : (principal s r u).IsHermitian := by
  have houter : ∀ (x : ℝ) (w : Fin 2 → ℝ), (x • vecMulVec w w).IsHermitian := by
    intro x w
    ext i j
    simp [vecMulVec_apply, mul_comm (w i)]
  exact (houter _ u).add (houter _ (quarterTurn u))

theorem principal_symm (s r : ℝ) (u : Fin 2 → ℝ) : principal s r u 1 0 = principal s r u 0 1 := by
  simpa using (isHermitian_principal s r u).apply 0 1

theorem posDef_principal (hs : s ≠ 0) (hr : r ≠ 0) (hu : u ⬝ᵥ u = 1) :
    (principal s r u).PosDef := by
  apply PosDef.of_dotProduct_mulVec_pos (isHermitian_principal s r u)
  intro d hd
  rw [star_trivial, form_principal]
  have hleast : 0 < min (s ^ 2) (r ^ 2) := lt_min (by positivity) (by positivity)
  calc 0 < min (s ^ 2) (r ^ 2) * (d ⬝ᵥ d) := mul_pos hleast (dotProduct_self_pos hd)
    _ = min (s ^ 2) (r ^ 2) * (u ⬝ᵥ d) ^ 2 + min (s ^ 2) (r ^ 2) * (quarterTurn u ⬝ᵥ d) ^ 2 := by
      rw [← mul_add, sq_add_sq_quarterTurn hu]
    _ ≤ s ^ 2 * (u ⬝ᵥ d) ^ 2 + r ^ 2 * (quarterTurn u ⬝ᵥ d) ^ 2 := by
      gcongr
      · exact min_le_left _ _
      · exact min_le_right _ _

/-! ### Tensors with principal directions -/

/-- A tensor of which `u` and its quarter turn are the principal directions, with slowness `s` along
`u` and slowness `r` across it. -/
structure IsPrincipal (t : Tensor EReal) (s r : ℝ) (u : Fin 2 → ℝ) : Prop where
  symmetric : t.xy = t.yx
  form_eq (d : Fin 2 → ℝ) : t.form (.ofReal d) (.ofReal d) =
    ((s ^ 2 * (u ⬝ᵥ d) ^ 2 + r ^ 2 * (quarterTurn u ⬝ᵥ d) ^ 2 : ℝ) : EReal)
  length_along (x : ℝ) : t.length (.ofReal (x • u)) = ((|s| * |x| : ℝ) : EReal)
  length_across (x : ℝ) : t.length (.ofReal (x • quarterTurn u)) = ((|r| * |x| : ℝ) : EReal)
  ratio_eq : t.ratio = ((max |s| |r| / min |s| |r| : ℝ) : EReal)

/-- Two numbers are determined by their sum and their product. -/
theorem max_div_min_eq {p q x y : ℝ} (hsum : p + q = x + y) (hprod : p * q = x * y) :
    max p q / min p q = max x y / min x y := by
  have hroot : (p - x) * (p - y) = 0 := by
    linear_combination p * hsum - hprod
  rcases mul_eq_zero.mp hroot with h | h
  · obtain rfl : p = x := by linarith
    obtain rfl : q = y := by linarith
    rfl
  · obtain rfl : p = y := by linarith
    obtain rfl : q = x := by linarith
    rw [max_comm, min_comm]

theorem sqrt_max_div_min_sq (s r : ℝ) :
    √(max (s ^ 2) (r ^ 2) / min (s ^ 2) (r ^ 2)) = max |s| |r| / min |s| |r| := by
  rcases le_total |s| |r| with h | h
  · have hsq := sq_le_sq.mpr h
    rw [max_eq_right hsq, min_eq_left hsq, max_eq_right h, min_eq_left h,
      Real.sqrt_div (sq_nonneg r), Real.sqrt_sq_eq_abs, Real.sqrt_sq_eq_abs]
  · have hsq := sq_le_sq.mpr h
    rw [max_eq_left hsq, min_eq_right hsq, max_eq_left h, min_eq_right h,
      Real.sqrt_div (sq_nonneg s), Real.sqrt_sq_eq_abs, Real.sqrt_sq_eq_abs]

theorem ratio_principal (hs : s ≠ 0) (hr : r ≠ 0) (hu : u ⬝ᵥ u = 1) :
    (Tensor.ofReal (principal s r u)).ratio = ((max |s| |r| / min |s| |r| : ℝ) : EReal) := by
  have hM := posDef_principal hs hr hu
  have hdet : principal s r u 0 1 ^ 2 < principal s r u 0 0 * principal s r u 1 1 := by
    have := hM.det_pos
    rw [det_fin_two, principal_symm] at this
    linarith
  rw [ofReal, principal_symm]
  obtain ⟨p, q, -, -, hsum, hprod, hratio⟩ :=
    exists_ratio (principal s r u 0 1) (hM.diag_pos (i := 0)) hdet
  -- the eigenvalues have the sum and the product of the squares of the slownesses
  rw [dotProduct, Fin.sum_univ_two] at hu
  have htrace : p + q = s ^ 2 + r ^ 2 := by
    rw [hsum]
    simp only [principal, quarterTurn_eq, Matrix.add_apply, Matrix.smul_apply, vecMulVec_apply,
      smul_eq_mul, cons_val_zero, cons_val_one]
    linear_combination (s ^ 2 + r ^ 2) * hu
  have hdet : p * q = s ^ 2 * r ^ 2 := by
    rw [hprod]
    simp only [principal, quarterTurn_eq, Matrix.add_apply, Matrix.smul_apply, vecMulVec_apply,
      smul_eq_mul, cons_val_zero, cons_val_one]
    linear_combination s ^ 2 * r ^ 2 * (u 0 * u 0 + u 1 * u 1 + 1) * hu
  rw [hratio, max_div_min_eq htrace hdet, sqrt_max_div_min_sq]

theorem isPrincipal_principal (hs : s ≠ 0) (hr : r ≠ 0) (hu : u ⬝ᵥ u = 1) :
    (Tensor.ofReal (principal s r u)).IsPrincipal s r u where
  symmetric := congrArg Real.toEReal (principal_symm s r u).symm
  form_eq d := by rw [Exact.form_ofReal, form_principal]
  length_along x := by
    rw [Exact.length_ofReal, form_principal, dotProduct_smul, dotProduct_smul, hu,
      dotProduct_comm (quarterTurn u), dotProduct_quarterTurn, ← abs_mul, ← Real.sqrt_sq_eq_abs]
    simp [mul_pow]
  length_across x := by
    rw [Exact.length_ofReal, form_principal, dotProduct_smul, dotProduct_smul,
      dotProduct_quarterTurn, quarterTurn_dotProduct_self, hu, ← abs_mul, ← Real.sqrt_sq_eq_abs]
    simp [mul_pow]
  ratio_eq := ratio_principal hs hr hu

end Principal

end Tensor

/-! ### Fields -/

namespace MetricField

variable {d : Array (Fin 2 → ℝ)} {along across : Slowness ℝ}

/-- Directions in the rows of a table. -/
def directionTable {α : Type} (d : Array (Vec α)) : NdArray α :=
  ⟨[d.size, 2], d.flatMap fun w => [w.x, w.y].toArray⟩

theorem unitRows_directionTable {α : Type} [Scalar α] (d : Array (Vec α)) :
    unitRows (directionTable d) = .ok (d.map direction) := by
  have hrows : (directionTable d).groups 2 = d.map fun w => #[w.x, w.y] :=
    NdArray.groups_flatMap (f := fun w : Vec α => [w.x, w.y]) (by decide) (fun _ => rfl) _ d
  show Except.ok (((directionTable d).groups 2).map _) = _
  rw [hrows, Array.map_map]
  rfl

/-- Each tensor of a field comes from the direction and the slownesses of its cell. -/
theorem exists_principal {field : MetricField EReal} {c : ℕ} {t : Tensor EReal}
    (h : ofDirections (d.map Vec.ofReal) along.ofReal across.ofReal = .ok field)
    (ht : field[c]? = some t) : ∃ w s r, NdArray.item? d c = some w ∧
      NdArray.item? along.values c = some s ∧ NdArray.item? across.values c = some r ∧
      t = .ofReal (Tensor.principal s r (unitAlong w)) := by
  obtain ⟨a, ha, h⟩ := bind_eq_ok h
  obtain ⟨b, hb, h⟩ := bind_eq_ok h
  have hitem := NdArray.item?_of_getElem? ht
  rw [NdArray.item?_zipSpread h, Slowness.item?_weigh ha, Slowness.item?_weigh hb] at hitem
  simp only [NdArray.item?_map, Option.map_map, Option.map₂_map_right] at hitem
  obtain ⟨_, _, hfirst, hsecond, rfl⟩ := Option.map₂_eq_some_iff.mp hitem
  obtain ⟨s, w, hs, hw, rfl⟩ := Option.mem_map₂_iff.mp hfirst
  obtain ⟨r, w', hr, hw', rfl⟩ := Option.mem_map₂_iff.mp hsecond
  -- both halves of the tensor take the same direction
  obtain rfl : w = w' := Option.mem_unique hw hw'
  refine ⟨w, s, r, hw, hs, hr, ?_⟩
  simp only [Function.comp_apply, direction_ofReal, turned_ofReal, Tensor.scale_outer_ofReal,
    Tensor.ofReal_add, Tensor.principal]

theorem exists_ofDirections (halong : along.Fits d.size) (hacross : across.Fits d.size) :
    ∃ field, ofDirections (d.map Vec.ofReal) along.ofReal across.ofReal = .ok field ∧
      field.size = d.size := by
  have hsize : ∀ f : Vec EReal → Tensor EReal,
      (((d.map Vec.ofReal).map direction).map f).size = d.size := by
    intro f
    rw [Array.size_map, Array.size_map, Array.size_map]
  rw [← hsize Tensor.outer] at halong
  rw [← hsize fun u => Tensor.outer u.turned] at hacross
  obtain ⟨a, ha, hasize⟩ := Slowness.exists_weigh halong
  obtain ⟨b, hb, hbsize⟩ := Slowness.exists_weigh hacross
  rw [hsize] at hasize hbsize
  obtain ⟨field, hfield, hfieldsize⟩ :=
    NdArray.exists_zipSpread (· + ·) (.inr (hasize.trans hbsize.symm))
  refine ⟨field, ?_, hfieldsize.trans hbsize⟩
  unfold ofDirections ofUnits
  rw [ha, hb]
  exact hfield

/-- Directions and slownesses other than zero give a field with those principal directions and
slownesses, whether the directions are a sequence or the rows of a table. The field passes the
checks. -/
theorem principal_of_ofDirections (halong : 0 ∉ along.values) (hacross : 0 ∉ across.values) :
    (unitRows (directionTable (d.map Vec.ofReal)) >>= (ofUnits · along.ofReal across.ofReal)) =
        ofDirections (d.map Vec.ofReal) along.ofReal across.ofReal ∧
      (along.Fits d.size → across.Fits d.size →
        ∃ field, ofDirections (d.map Vec.ofReal) along.ofReal across.ofReal = .ok field ∧
          field.size = d.size) ∧
      ∀ field, ofDirections (d.map Vec.ofReal) along.ofReal across.ofReal = .ok field →
        ofArray field.size (toArray field) = .ok field ∧
        ∀ c t, field[c]? = some t → ∃ w s r, NdArray.item? d c = some w ∧
          NdArray.item? along.values c = some s ∧ NdArray.item? across.values c = some r ∧
          t.IsPrincipal s r (unitAlong w) := by
  refine ⟨by rw [unitRows_directionTable]; rfl, exists_ofDirections, fun field h => ?_⟩
  have htensor : ∀ c t, field[c]? = some t → ∃ w s r, NdArray.item? d c = some w ∧
      NdArray.item? along.values c = some s ∧ NdArray.item? across.values c = some r ∧
      s ≠ 0 ∧ r ≠ 0 ∧ t = .ofReal (Tensor.principal s r (unitAlong w)) := by
    intro c t ht
    obtain ⟨w, s, r, hw, hs, hr, rfl⟩ := exists_principal h ht
    refine ⟨w, s, r, hw, hs, hr, ?_, ?_, rfl⟩
    · rintro rfl
      exact halong (NdArray.mem_of_item? hs)
    · rintro rfl
      exact hacross (NdArray.mem_of_item? hr)
  constructor
  · rw [ofArray_eq_ok_iff_accepted]
    refine ⟨tensors?_toArray field, fun t ht => ?_⟩
    obtain ⟨c, ht⟩ := Array.getElem?_of_mem ht
    obtain ⟨w, s, r, -, -, -, hs, hr, rfl⟩ := htensor c t ht
    exact ⟨_, rfl, .of_posDef (Tensor.posDef_principal hs hr (unitAlong_dotProduct_self w))⟩
  · intro c t ht
    obtain ⟨w, s, r, hw, hs, hr, hs0, hr0, rfl⟩ := htensor c t ht
    exact ⟨w, s, r, hw, hs, hr,
      Tensor.isPrincipal_principal hs0 hr0 (unitAlong_dotProduct_self w)⟩

/-- An oblique direction and a zero one, with one slowness along them and a list across them. -/
theorem principal_of_ofDirections_sample :
    ∃ t₀ t₁ : Tensor EReal,
      ofDirections (#[![3, 4], 0].map Vec.ofReal) (Slowness.uniform 2).ofReal
        (Slowness.perCell #[1, -3]).ofReal = .ok #[t₀, t₁] ∧
      ofArray 2 (toArray #[t₀, t₁]) = .ok #[t₀, t₁] ∧
      t₀.length (.ofReal ![3, 4]) = ((10 : ℝ) : EReal) ∧ t₀.ratio = ((2 : ℝ) : EReal) ∧
      t₁.length (.ofReal ![0, 1]) = ((3 : ℝ) : EReal) ∧ t₁.ratio = ((3 / 2 : ℝ) : EReal) := by
  have halong : (0 : ℝ) ∉ (Slowness.uniform 2).values := by simp [Slowness.values]
  have hacross : (0 : ℝ) ∉ (Slowness.perCell #[1, -3]).values := by simp [Slowness.values]
  obtain ⟨-, hreturns, hfield⟩ :=
    principal_of_ofDirections (d := #[![3, 4], 0]) halong hacross
  obtain ⟨field, h, hsize⟩ := hreturns (.inl rfl) (.inr rfl)
  obtain ⟨t₀, t₁, rfl⟩ : ∃ t₀ t₁, field = #[t₀, t₁] := by
    obtain ⟨l⟩ := field
    obtain ⟨t₀, t₁, rfl⟩ := List.length_eq_two.mp hsize
    exact ⟨t₀, t₁, rfl⟩
  obtain ⟨hchecks, htensors⟩ := hfield _ h
  obtain ⟨_, _, _, ⟨⟩, ⟨⟩, ⟨⟩, h₀⟩ := htensors 0 t₀ rfl
  obtain ⟨_, _, _, ⟨⟩, ⟨⟩, ⟨⟩, h₁⟩ := htensors 1 t₁ rfl
  have h₀ : t₀.IsPrincipal 2 1 (unitAlong ![3, 4]) := h₀
  have h₁ : t₁.IsPrincipal 2 (-3) (unitAlong 0) := h₁
  have hoblique : (5 : ℝ) • unitAlong ![3, 4] = ![3, 4] := by
    have hroot : √(![(3 : ℝ), 4] ⬝ᵥ ![3, 4]) = 5 := by
      rw [Real.sqrt_eq_iff_mul_self_eq_of_pos (by norm_num)]
      norm_num
    rw [unitAlong, if_neg (by simp), hroot, smul_inv_smul₀ (by norm_num)]
  have haxis : (1 : ℝ) • quarterTurn (unitAlong 0) = ![0, 1] := by
    simp [unitAlong, quarterTurn_eq]
  refine ⟨t₀, t₁, h, hchecks, ?_, ?_, ?_, ?_⟩
  · rw [← hoblique, h₀.length_along]
    norm_num
  · rw [h₀.ratio_eq]
    norm_num
  · rw [← haxis, h₁.length_across]
    norm_num
  · rw [h₁.ratio_eq]
    norm_num

end MetricField

end Eikonal
