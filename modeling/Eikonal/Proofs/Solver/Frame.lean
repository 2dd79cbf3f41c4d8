import Eikonal.Proofs.Grid.Angle
import Eikonal.Proofs.Solver.Distance
import Eikonal.Proofs.Solver.Similar

/-! The solver in other frames. A rotation, a stretch and a shift of the centroids turn all
directions by one angle, so the neighbours of a cell keep their cyclic order, although the list may
begin with another of them. With the metric turned and weighted accordingly the same pairs bound
wedges and all updates carry one factor: the medium is similar, and its solves mirror those of the
original. -/

namespace Eikonal

open Matrix

namespace Stencil.Chord

/-- The chord in a frame in which lengths and times are `κ` times as great. -/
noncomputable def scale (κ : ℝ) (t : Chord EReal) : Chord EReal :=
  { A := κ * (κ * t.A), B := κ * (κ * t.B), C := κ * (κ * t.C), uj := κ * t.uj, uk := κ * t.uk }

section Scale

variable {κ : ℝ} (hκ : 0 < κ) (t : Chord EReal)
include hκ

theorem delta_scale : (t.scale κ).delta = κ * t.delta :=
  (Exact.scale_sub hκ).symm

theorem D_scale : (t.scale κ).D = κ * (κ * (κ * (κ * t.D))) := by
  simp only [D, scale, Exact.scale_sub hκ]
  congr 1 <;> ac_rfl

theorem cost_scale (l : EReal) : (t.scale κ).cost l = κ * t.cost l := by
  have hq : (t.scale κ).A * l * l + Scalar.two * (t.scale κ).B * l + (t.scale κ).C =
      κ * (κ * (t.A * l * l + Scalar.two * t.B * l + t.C)) := by
    simp only [Exact.scale_add hκ, scale]
    congr 1
    congr 1 <;> ac_rfl
  have hzero : (Scalar.zero : EReal) = κ * (κ * Scalar.zero) := by simp
  have hdelta : l * (κ * t.delta) = κ * (l * t.delta) := by ac_rfl
  unfold cost
  rw [delta_scale hκ]
  dsimp only
  rw [hq, hzero, Exact.scale_upper hκ, Exact.scale_upper hκ, Exact.sqrt_scale hκ, hdelta,
    ← hzero, Exact.scale_add hκ, Exact.scale_add hκ]
  rfl

/-- The place of the least arrival does not depend on the frame. -/
theorem stationary?_scale : (t.scale κ).stationary? = t.stationary? := by
  have hpos : ∀ a : EReal, Scalar.lt Scalar.zero ((κ : EReal) * a) = Scalar.lt Scalar.zero a := by
    intro a
    have h := Exact.scale_lt (a := Scalar.zero) (b := a) hκ
    rwa [Exact.zero_eq, mul_zero] at h
  have hA : (t.scale κ).A = κ * (κ * t.A) := rfl
  have hB : (t.scale κ).B = κ * (κ * t.B) := rfl
  have hdelta : (t.scale κ).delta * (t.scale κ).delta = κ * (κ * (t.delta * t.delta)) := by
    rw [delta_scale hκ]
    ac_rfl
  have hplace : (-(t.scale κ).delta * Scalar.sqrt ((t.scale κ).D /
        ((t.scale κ).A - (t.scale κ).delta * (t.scale κ).delta)) - (t.scale κ).B) /
          (t.scale κ).A =
      (-t.delta * Scalar.sqrt (t.D / (t.A - t.delta * t.delta)) - t.B) / t.A := by
    have hroot : Scalar.sqrt ((t.scale κ).D /
        ((t.scale κ).A - (t.scale κ).delta * (t.scale κ).delta)) =
          κ * Scalar.sqrt (t.D / (t.A - t.delta * t.delta)) := by
      rw [hdelta, hA, D_scale hκ, ← Exact.scale_sub hκ, ← Exact.scale_sub hκ, Exact.scale_div hκ,
        Exact.scale_div hκ, ← EReal.mul_div, ← EReal.mul_div, Exact.sqrt_scale hκ]
    have hturn : -(κ * t.delta) * (κ * Scalar.sqrt (t.D / (t.A - t.delta * t.delta))) =
        κ * (κ * (-t.delta * Scalar.sqrt (t.D / (t.A - t.delta * t.delta)))) := by
      rw [← mul_neg]
      ac_rfl
    rw [hroot, hA, hB, delta_scale hκ, hturn, ← Exact.scale_sub hκ, ← Exact.scale_sub hκ,
      Exact.scale_div hκ, Exact.scale_div hκ]
  unfold stationary?
  rw [hplace, hdelta, hA, D_scale hκ]
  simp only [hpos, Exact.scale_lt hκ]

theorem least_scale : (t.scale κ).least = κ * t.least := by
  unfold least
  rw [stationary?_scale hκ]
  simp only [cost_scale hκ, Exact.scale_lower hκ]
  split
  · split <;> rfl
  · rfl

theorem value_scale : (t.scale κ).value = κ * t.value := by
  unfold value
  rw [least_scale hκ]
  show Scalar.upper (Scalar.upper (κ * t.least) (κ * t.uj)) (κ * t.uk) = _
  rw [Exact.scale_upper hκ, Exact.scale_upper hκ]

end Scale

end Stencil.Chord

/-! ### Frames -/

/-- A frame of the plane. Points are turned, stretched and shifted, and travel over the same length
takes `slowness` times as long. -/
structure Frame where
  rotation : specialOrthogonalGroup (Fin 2) ℝ
  stretch : ℝ
  slowness : ℝ
  shift : Fin 2 → ℝ
  stretch_pos : 0 < stretch
  slowness_pos : 0 < slowness

namespace Frame

variable (F : Frame)

def direction (d : Fin 2 → ℝ) : Fin 2 → ℝ := F.stretch • (F.rotation.val *ᵥ d)

def point (v : Fin 2 → ℝ) : Fin 2 → ℝ := F.direction v + F.shift

def tensor (M : Matrix (Fin 2) (Fin 2) ℝ) : Matrix (Fin 2) (Fin 2) ℝ :=
  F.slowness ^ 2 • (F.rotation.val * M * F.rotation.valᵀ)

/-- The factor of all times. -/
def factor : ℝ := F.stretch * F.slowness

theorem factor_pos : 0 < F.factor := mul_pos F.stretch_pos F.slowness_pos

theorem transpose_mul_rotation : F.rotation.valᵀ * F.rotation.val = 1 :=
  (mem_orthogonalGroup_iff' (Fin 2) ℝ).mp F.rotation.prop.1

theorem point_sub (v w : Fin 2 → ℝ) : F.point v - F.point w = F.direction (v - w) := by
  simp only [point, direction, mulVec_sub, smul_sub]
  abel

theorem dot_direction (v w : Fin 2 → ℝ) :
    F.direction v ⬝ᵥ F.direction w = F.stretch ^ 2 * (v ⬝ᵥ w) := by
  rw [direction, direction, smul_dotProduct, dotProduct_smul, dotProduct_mulVec, ← mulVec_transpose,
    mulVec_mulVec, transpose_mul_rotation, one_mulVec, smul_eq_mul, smul_eq_mul]
  ring

theorem tensor_direction (M : Matrix (Fin 2) (Fin 2) ℝ) (d : Fin 2 → ℝ) :
    F.tensor M *ᵥ F.direction d = F.slowness ^ 2 • F.direction (M *ᵥ d) := by
  rw [tensor, direction, direction, mulVec_smul, smul_mulVec, mulVec_mulVec, Matrix.mul_assoc,
    Matrix.mul_assoc, transpose_mul_rotation, Matrix.mul_one, ← mulVec_mulVec, smul_comm]

theorem form_direction (M : Matrix (Fin 2) (Fin 2) ℝ) (v w : Fin 2 → ℝ) :
    F.direction v ⬝ᵥ F.tensor M *ᵥ F.direction w = F.factor * (F.factor * (v ⬝ᵥ M *ᵥ w)) := by
  rw [tensor_direction, dotProduct_smul, dot_direction, factor, smul_eq_mul]
  ring

theorem cross_direction (v w : Fin 2 → ℝ) :
    F.direction v 0 * F.direction w 1 - F.direction v 1 * F.direction w 0 =
      F.stretch ^ 2 * (v 0 * w 1 - v 1 * w 0) := by
  obtain ⟨h1, h2, h3⟩ := mem_specialOrthogonalGroup_fin_two_iff.mp F.rotation.prop
  rw [h2] at h3
  simp only [direction, Pi.smul_apply, mulVec, dotProduct, Fin.sum_univ_two, smul_eq_mul, h2, ← h1]
  linear_combination F.stretch ^ 2 * (v 0 * w 1 - v 1 * w 0) * h3

theorem posDef_tensor {M : Matrix (Fin 2) (Fin 2) ℝ} (hM : M.PosDef) : (F.tensor M).PosDef := by
  have hunit : IsUnit F.rotation.val := by
    rw [isUnit_iff_isUnit_det, (mem_specialOrthogonalGroup_iff.mp F.rotation.prop).2]
    exact isUnit_one
  have h := (Matrix.IsUnit.posDef_star_right_conjugate_iff hunit).mpr hM
  rw [star_eq_conjTranspose, conjTranspose_eq_transpose_of_trivial] at h
  exact h.smul (pow_pos F.slowness_pos 2)

/-- As complex numbers all directions are multiplied by one number. -/
theorem exists_mul : ∃ w : ℂ, w ≠ 0 ∧ ∀ d : Fin 2 → ℝ,
    (⟨F.direction d 0, F.direction d 1⟩ : ℂ) = w * ⟨d 0, d 1⟩ := by
  obtain ⟨h1, h2, h3⟩ := mem_specialOrthogonalGroup_fin_two_iff.mp F.rotation.prop
  refine ⟨F.stretch * ⟨F.rotation.val 0 0, F.rotation.val 1 0⟩, mul_ne_zero ?_ ?_, fun d => ?_⟩
  · exact_mod_cast F.stretch_pos.ne'
  · intro h
    have hre : F.rotation.val 0 0 = 0 := congrArg Complex.re h
    have him : F.rotation.val 1 0 = 0 := congrArg Complex.im h
    rw [h2, him, hre] at h3
    norm_num at h3
  · apply Complex.ext
    · simp only [direction, Pi.smul_apply, mulVec, dotProduct, Fin.sum_univ_two, smul_eq_mul, h2,
        Complex.mul_re, Complex.mul_im, Complex.ofReal_re, Complex.ofReal_im]
      ring
    · simp only [direction, Pi.smul_apply, mulVec, dotProduct, Fin.sum_univ_two, smul_eq_mul, ← h1,
        Complex.mul_re, Complex.mul_im, Complex.ofReal_re, Complex.ofReal_im]
      ring

/-- All directions are turned by one angle. -/
theorem exists_turn : ∃ α : ℝ, ∀ d ≠ 0, ∃ n : ℤ,
    Complex.arg ⟨F.direction d 0, F.direction d 1⟩ =
      Complex.arg ⟨d 0, d 1⟩ + (α + 2 * Real.pi * n) := by
  obtain ⟨w, hw, hmul⟩ := F.exists_mul
  refine ⟨Complex.arg w, fun d hd => ?_⟩
  have hz : (⟨d 0, d 1⟩ : ℂ) ≠ 0 := by
    intro h
    refine hd (funext fun i => ?_)
    fin_cases i
    · exact congrArg Complex.re h
    · exact congrArg Complex.im h
  have hangle := Complex.arg_mul_coe_angle hw hz
  rw [← Real.Angle.coe_add, Real.Angle.angle_eq_iff_two_pi_dvd_sub] at hangle
  obtain ⟨n, hn⟩ := hangle
  refine ⟨n, ?_⟩
  rw [hmul]
  linarith

/-! ### Updates in a frame -/

open Stencil

variable (c j k : Fin 2 → ℝ) (M : Matrix (Fin 2) (Fin 2) ℝ) (u w : EReal)

theorem sqrt_sq_mul {s : ℝ} (hs : 0 < s) (a : ℝ) : √(s ^ 2 * a) = s * √a := by
  rw [Real.sqrt_mul (sq_nonneg s), Real.sqrt_sq hs.le]

theorem isWedge_point :
    isWedge (Vec.ofReal (F.point c)) (.ofReal (F.point j)) (.ofReal (F.point k)) =
      isWedge (Vec.ofReal c) (.ofReal j) (.ofReal k) := by
  have hs := F.stretch_pos
  rw [Bool.eq_iff_iff, isWedge_ofReal, isWedge_ofReal, point_sub, point_sub, dot_direction,
    dot_direction, cross_direction, sqrt_sq_mul hs, sqrt_sq_mul hs]
  have hscale : 1 / 10 ^ 12 * (F.stretch * √((j - c) ⬝ᵥ (j - c))) *
      (F.stretch * √((k - c) ⬝ᵥ (k - c))) =
        F.stretch ^ 2 * (1 / 10 ^ 12 * √((j - c) ⬝ᵥ (j - c)) * √((k - c) ⬝ᵥ (k - c))) := by
    ring
  rw [hscale]
  exact mul_lt_mul_iff_right₀ (pow_pos hs 2)

theorem line_point : line (.ofReal (F.point c)) (.ofReal (F.point j)) (F.factor * u)
    (.ofReal (F.tensor M)) = F.factor * line (.ofReal c) (.ofReal j) u (.ofReal M) := by
  rw [line, line, Exact.ofReal_sub, Exact.ofReal_sub, Exact.length_ofReal, Exact.length_ofReal,
    point_sub, form_direction, ← mul_assoc, ← pow_two, sqrt_sq_mul F.factor_pos,
    Exact.scale_add F.factor_pos, EReal.coe_mul]

theorem of_point : Chord.of (.ofReal (F.point c)) (.ofReal (F.point j)) (F.factor * u)
    (.ofReal (F.point k)) (F.factor * w) (.ofReal (F.tensor M)) =
      (Chord.of (.ofReal c) (.ofReal j) u (.ofReal k) w (.ofReal M)).scale F.factor := by
  simp only [Chord.of, Chord.scale, Exact.ofReal_sub, Exact.form_ofReal, point_sub, form_direction,
    EReal.coe_mul]

theorem triangle_point : triangle (.ofReal (F.point c)) (.ofReal (F.point j)) (F.factor * u)
    (.ofReal (F.point k)) (F.factor * w) (.ofReal (F.tensor M)) =
      F.factor * triangle (.ofReal c) (.ofReal j) u (.ofReal k) w (.ofReal M) := by
  rw [triangle, of_point, Chord.value_scale F.factor_pos, triangle]

end Frame

/-! ### Meshes and media in a frame -/

namespace Mesh

variable {memory : Memory} {g g' : CellGrid EReal} {mesh mesh' : Mesh EReal} {x : ℕ → Fin 2 → ℝ}
  {F : Frame}

/-- Meshes with the same neighbours have the same cells. -/
theorem size_eq_of_neighbours (hg : ofGrid memory g = .ok mesh) (hg' : ofGrid memory g' = .ok mesh')
    (hn : g'.neighbours memory = g.neighbours memory) : mesh'.size = mesh.size := by
  rw [size_of_ofGrid hg, size_of_ofGrid hg']
  obtain ⟨t, ht, -⟩ := exists_table_of_ofGrid hg
  rw [← (CellGrid.undirected_of_neighbours ht).size,
    ← (CellGrid.undirected_of_neighbours (hn.trans ht)).size]

/-- The cyclic order of the neighbours does not depend on the frame. -/
theorem around_isRotated (hg : ofGrid memory g = .ok mesh) (hg' : ofGrid memory g' = .ok mesh')
    (hn : g'.neighbours memory = g.neighbours memory)
    (hx : ∀ c < mesh.size, mesh.point c = .ofReal (x c))
    (hx' : ∀ c < mesh'.size, mesh'.point c = .ofReal (F.point (x c)))
    (hapart : ∀ c, ∀ d ∈ mesh.around c, x d ≠ x c) (c : ℕ) : mesh'.around c ~r mesh.around c := by
  have hu := undirected_of_ofGrid hg
  have hsize := size_eq_of_neighbours hg hg' hn
  obtain ⟨t, ht, rfl⟩ := exists_table_of_ofGrid hg
  obtain ⟨t', ht', rfl⟩ := exists_table_of_ofGrid hg'
  obtain rfl : t' = t := Except.ok.inj (ht'.symm.trans (hn.trans ht))
  have hmem : ∀ d ∈ t'.row c, d ∈ (ofTable g.points t').around c := fun d hd =>
    (around_ofTable_perm _ _ c).mem_iff.mpr hd
  have hdirection : ∀ d ∈ t'.row c,
      (ofTable g.points t').point d - (ofTable g.points t').point c = .ofReal (x d - x c) ∧
      (ofTable g'.points t').point d - (ofTable g'.points t').point c =
        .ofReal (F.direction (x d - x c)) := by
    intro d hd
    have hd := hmem d hd
    have hc' := hu.lt_left hd
    have hd' := hu.lt_right hd
    rw [hx c hc', hx d hd', hx' c (by rwa [hsize]), hx' d (by rwa [hsize]), Exact.ofReal_sub,
      Exact.ofReal_sub, F.point_sub]
    exact ⟨rfl, rfl⟩
  have hasc := (CellGrid.undirected_of_neighbours ht).ascending c
  obtain ⟨α, hα⟩ := F.exists_turn
  have hangle : ∀ d ∈ t'.row c,
      ((ofTable g.points t').point d - (ofTable g.points t').point c).angle =
        ((Complex.arg ⟨(x d - x c) 0, (x d - x c) 1⟩ : ℝ) : EReal) :=
    fun d hd => by rw [(hdirection d hd).1, Exact.angle_ofReal]
  have hangle' : ∀ d ∈ t'.row c,
      ((ofTable g'.points t').point d - (ofTable g'.points t').point c).angle =
        ((Complex.arg ⟨F.direction (x d - x c) 0, F.direction (x d - x c) 1⟩ : ℝ) : EReal) :=
    fun d hd => by rw [(hdirection d hd).2, Exact.angle_ofReal]
  rw [around_ofTable, around_ofTable]
  exact sortByAngle_isRotated hangle hangle' hasc
    (fun _ _ => ⟨Complex.neg_pi_lt_arg _, Complex.arg_le_pi _⟩)
    (fun _ _ => ⟨Complex.neg_pi_lt_arg _, Complex.arg_le_pi _⟩)
    fun d hd => hα _ (sub_ne_zero.mpr (hapart c d (hmem d hd)))

end Mesh

namespace Medium

variable {m m' : Medium EReal} {x : ℕ → Fin 2 → ℝ} {M : ℕ → Matrix (Fin 2) (Fin 2) ℝ} {F : Frame}

/-- A medium in another frame is similar. -/
theorem IsReal.similar (hm : m.IsReal x M)
    (hm' : m'.IsReal (fun c => F.point (x c)) fun c => F.tensor (M c)) (hu : m.mesh.Undirected)
    (hsize : m'.mesh.size = m.mesh.size) (haround : ∀ c, m'.around c ~r m.around c) :
    m.Similar F.factor m' := by
  refine ⟨F.factor_pos, hsize, fun c d => (haround c).mem_iff,
    fun c p => mem_cyclicPairs_of_isRotated (haround c) p, ?_, ?_⟩
  · intro u u' c j hj hv
    have hc := hu.lt_left hj
    have hj := hu.lt_right hj
    rw [fromLine, fromLine, hm.point c hc, hm.point j hj, hm.tensor c hc, hv,
      hm'.point c (by rwa [hsize]), hm'.point j (by rwa [hsize]), hm'.tensor c (by rwa [hsize]),
      F.line_point]
  · intro u u' c p hp hv hw
    obtain ⟨h1, h2⟩ := mem_of_mem_cyclicPairs hp
    have hc := hu.lt_left h1
    have hj := hu.lt_right h1
    have hk := hu.lt_right h2
    rw [fromTriangle, fromTriangle, hm.point c hc, hm.point p.1 hj, hm.point p.2 hk, hm.tensor c hc,
      hv, hw, hm'.point c (by rwa [hsize]), hm'.point p.1 (by rwa [hsize]),
      hm'.point p.2 (by rwa [hsize]), hm'.tensor c (by rwa [hsize]), F.isWedge_point,
      F.triangle_point]
    split
    · rfl
    · exact (Exact.scale_inf F.factor_pos).symm

end Medium

namespace Solver

variable {memory : Memory} {g g' : CellGrid EReal} {mesh mesh' : Mesh EReal} {s s' : Solver EReal}
  {metric metric' : NdArray EReal} {starts : Json} {cells : List ℕ} {x : ℕ → Fin 2 → ℝ}
  {M : ℕ → Matrix (Fin 2) (Fin 2) ℝ}

/-- In exact arithmetic the outcome of a solve does not depend on the frame. If no cell has a
neighbour at its own centroid, then with the centroids turned, stretched and shifted, and the metric
turned and weighted with them, the times carry one factor, or the same bound is exceeded; the order
of acceptance and the numbers of acceptances and relaxations are the same. With the default bound
both solves return. -/
theorem solve_frame_independent (F : Frame) (hg : Mesh.ofGrid memory g = .ok mesh)
    (hg' : Mesh.ofGrid memory g' = .ok mesh') (hn : g'.neighbours memory = g.neighbours memory)
    (hx : ∀ c < mesh.size, mesh.point c = .ofReal (x c))
    (hx' : ∀ c < mesh'.size, mesh'.point c = .ofReal (F.point (x c)))
    (hapart : ∀ c, ∀ d ∈ mesh.around c, x d ≠ x c) (hs : Reachable mesh s)
    (hs' : Reachable mesh' s') (hb : s'.bound? = s.bound?)
    (hM : MetricField.tensors? s.size metric = some (.ofReal mesh.size M))
    (hM' : MetricField.tensors? s'.size metric' =
      some (.ofReal mesh'.size fun c => F.tensor (M c)))
    (hpos : ∀ c < mesh.size, (M c).PosDef) (hstart : startCells s.size starts = .ok cells) :
    (s'.solve metric' starts).2 =
        (s.solve metric starts).2.map (fun u => u.map ((F.factor : EReal) * ·)) ∧
      (s'.solve metric' starts).1.run.order = (s.solve metric starts).1.run.order ∧
      (s'.solve metric' starts).1.run.iterations = (s.solve metric starts).1.run.iterations ∧
      (s'.solve metric' starts).1.run.relaxations = (s.solve metric starts).1.run.relaxations ∧
      (s.bound? = none → ∃ u, (s.solve metric starts).2 = .ok u) := by
  obtain ⟨rfl, hsized⟩ := hs.sized
  obtain ⟨rfl, hsized'⟩ := hs'.sized
  have hsize : s'.mesh.size = s.mesh.size := Mesh.size_eq_of_neighbours hg hg' hn
  have hin : s.checkInput metric starts = .ok (.ofReal s.mesh.size M, cells) :=
    checkInput_eq_ok_iff.mpr ⟨MetricField.ofArray_of_posDef hM hpos, hstart⟩
  have hin' : s'.checkInput metric' starts =
      .ok (.ofReal s'.mesh.size fun c => F.tensor (M c), cells) := by
    refine checkInput_eq_ok_iff.mpr ⟨MetricField.ofArray_of_posDef hM' fun c hc => ?_, ?_⟩
    · exact F.posDef_tensor (hpos c (by rwa [← hsize]))
    · rwa [size, hsize]
  obtain ⟨hasc, hlt⟩ := starts_of_checkInput hin
  have hu := Mesh.undirected_of_ofGrid hg
  have hu' := Mesh.undirected_of_ofGrid hg'
  have hm : Medium.IsReal ⟨s.mesh, .ofReal s.mesh.size M⟩ x M := Medium.isReal_ofReal hx
  have hm' : Medium.IsReal ⟨s'.mesh, .ofReal s'.mesh.size fun c => F.tensor (M c)⟩
      (fun c => F.point (x c)) fun c => F.tensor (M c) := Medium.isReal_ofReal hx'
  have hbound : s'.bound = s.bound := by
    rw [bound, bound, hb, size, size, hsize]
  have hmirrored := Run.mirrored_solve
    (hm.similar hm' hu hsize (Mesh.around_isRotated hg hg' hn hx hx' hapart)) hu hu'
    (hm.linesFinite hu) (hm'.linesFinite hu') s.bound (hasc.imp fun h => Nat.ne_of_lt h) hlt hsized
    hsized'
  rw [run_solve hin, run_solve hin', (solve_eq hin').2, hbound, hmirrored.outcome]
  refine ⟨by rw [(solve_eq hin).2], hmirrored.scaled.order, hmirrored.scaled.iterations,
    hmirrored.scaled.relaxations, fun hnone => exists_returned hg hs hnone hin hm⟩

/-! ### A quarter turn -/

/-- A quarter turn that doubles all lengths, with travel three times as slow. -/
def quarterTurn : Frame where
  rotation := ⟨!![0, -1; 1, 0], by simp [of_mem_specialOrthogonalGroup_fin_two_iff]⟩
  stretch := (2 : ℕ)
  slowness := (3 : ℕ)
  shift := 1
  stretch_pos := by norm_num
  slowness_pos := by norm_num

noncomputable def turnedGrid : CellGrid EReal :=
  { exactGrid with centroids := #[#[1, 1], #[1, ((3 : ℕ) : ℝ)]] }

noncomputable def turnedMesh : Mesh EReal := .ofTable turnedGrid.points #[[1], [0]]

noncomputable def turnedMetric : NdArray EReal :=
  { shape := [2, 2, 2], items := #[(9 : ℝ), 0, 0, (36 : ℝ), (9 : ℝ), 0, 0, (36 : ℝ)] }

theorem ofGrid_turnedGrid : Mesh.ofGrid sampleMemory turnedGrid = .ok turnedMesh :=
  Mesh.ofGrid_of_linked rfl rfl (by decide +kernel)

theorem size_turnedMesh : turnedMesh.size = 2 := by
  simp [turnedMesh, Mesh.size, Mesh.ofTable, turnedGrid, CellGrid.points]

theorem point_turnedMesh {c : ℕ} (hc : c < turnedMesh.size) :
    turnedMesh.point c = .ofReal (quarterTurn.point ![(c : ℝ), 0]) := by
  rw [size_turnedMesh] at hc
  interval_cases c
  · simp [turnedMesh, Mesh.point, Mesh.ofTable, turnedGrid, CellGrid.points, CellGrid.planePoint,
      Vec.ofReal, Frame.point, Frame.direction, quarterTurn]
  · have h3 : (2 : ℝ) + 1 = 3 := by norm_num
    simp [turnedMesh, Mesh.point, Mesh.ofTable, turnedGrid, CellGrid.points, CellGrid.planePoint,
      Vec.ofReal, Frame.point, Frame.direction, quarterTurn, h3]

theorem tensor_quarterTurn : quarterTurn.tensor (diagonal ![4, 1]) = diagonal ![9, 36] := by
  ext i j
  fin_cases i <;> fin_cases j <;> norm_num [Frame.tensor, quarterTurn, Matrix.mul_apply,
    Matrix.vecMul, vecHead, vecTail]

theorem tensors_turnedMetric : MetricField.tensors? turnedMesh.size turnedMetric =
    some (.ofReal turnedMesh.size fun _ => quarterTurn.tensor (diagonal ![4, 1])) := by
  rw [size_turnedMesh, tensor_quarterTurn]
  simp [MetricField.tensors?, turnedMetric, NdArray.groups, List.range_succ, MetricField.ofReal,
    Array.ofFn_succ, Tensor.ofReal]

theorem solve_frame_independent_sample :
    ((new turnedMesh none).solve turnedMetric sampleStarts).2 =
      ((new exactMesh none).solve exactMetric sampleStarts).2.map
        fun u => u.map (((6 : ℝ) : EReal) * ·) := by
  have hapart : ∀ c, ∀ d ∈ exactMesh.around c, ![(d : ℝ), 0] ≠ ![(c : ℝ), 0] := by
    intro c d hd heq
    exact (Mesh.undirected_of_ofGrid ofGrid_exactGrid).ne hd (by simpa using congrFun heq 0)
  have h := (solve_frame_independent quarterTurn ofGrid_exactGrid ofGrid_turnedGrid rfl
    (fun _ hc => point_exactMesh hc) (fun _ hc => point_turnedMesh hc) hapart (.new none)
    (.new none) rfl tensors_exactMetric tensors_turnedMetric (fun _ _ => posDef_exactMetric)
    startCells_exactMesh).1
  rwa [show quarterTurn.factor = 6 by norm_num [Frame.factor, quarterTurn]] at h

end Solver

end Eikonal
