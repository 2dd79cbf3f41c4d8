import Eikonal.Proofs.Metric.Definite
import Eikonal.Proofs.Scalar.Exact
import Eikonal.Proofs.Solver.Barrier
import Eikonal.Proofs.Solver.Complete

/-! Computed times and distances. In exact arithmetic the distance to a single start cell, in a
constant metric that is nowhere longer than the metric of the field, is a barrier: a segment costs
at least its length in the constant metric, that length satisfies the triangle inequality, and over
a chord it is convex. So no computed time falls below the distance. -/

namespace Eikonal

open Matrix

/-! ### Lengths in a constant metric -/

section Length

variable {M : Matrix (Fin 2) (Fin 2) ℝ}

noncomputable def lengthSeminorm (M : Matrix (Fin 2) (Fin 2) ℝ) (hM : M.PosSemidef) :
    Seminorm ℝ (Fin 2 → ℝ) :=
  letI := M.toSeminormedAddCommGroup hM
  letI := M.toInnerProductSpace hM
  normSeminorm ℝ (Fin 2 → ℝ)

theorem lengthSeminorm_apply (hM : M.PosSemidef) (d : Fin 2 → ℝ) :
    lengthSeminorm M hM d = √(d ⬝ᵥ M *ᵥ d) := by
  have hnorm := @norm_eq_sqrt_real_inner _ (M.toSeminormedAddCommGroup hM)
    (M.toInnerProductSpace hM) d
  refine hnorm.trans ?_
  show √((M *ᵥ d) ⬝ᵥ star d) = _
  rw [star_trivial, dotProduct_comm]

end Length

/-! ### Updates -/

namespace Stencil

variable {c j k a : Fin 2 → ℝ} {M : Matrix (Fin 2) (Fin 2) ℝ} {N : Seminorm ℝ (Fin 2 → ℝ)}
  {uj uk : EReal}

/-- The least arrival over a segment is the arrival over one of its points. -/
theorem Chord.exists_least_eq (t : Chord EReal) :
    ∃ l : ℝ, 0 ≤ l ∧ l ≤ 1 ∧ t.least = t.cost l := by
  have hends : ∃ l : ℝ, 0 ≤ l ∧ l ≤ 1 ∧
      Scalar.lower (t.cost Scalar.zero) (t.cost Scalar.one) = t.cost l := by
    rcases Scalar.lower_eq_or (t.cost Scalar.zero) (t.cost Scalar.one) with h | h
    · exact ⟨0, le_rfl, zero_le_one, h⟩
    · exact ⟨1, zero_le_one, le_rfl, h⟩
  unfold least
  split
  · rename_i lam _
    split
    · rename_i hlam
      rw [Bool.and_eq_true, Exact.lt_iff, Exact.lt_iff, Exact.zero_eq, Exact.one_eq] at hlam
      obtain ⟨h0, h1⟩ := hlam
      rcases Scalar.lower_eq_or (Scalar.lower (t.cost Scalar.zero) (t.cost Scalar.one))
        (t.cost lam) with h | h
      · rw [h]
        exact hends
      · lift lam to ℝ using ⟨h1.ne_top, h0.ne_bot⟩
        exact ⟨lam, by exact_mod_cast h0.le, by exact_mod_cast h1.le, h⟩
    · exact hends
  · exact hends

/-- The arrival over a point of a segment: the time interpolated there and the length of the way on
from it. -/
theorem cost_of (hM : M.IsHermitian) (uj uk l : ℝ) :
    (Chord.of (.ofReal c) (.ofReal j) uj (.ofReal k) uk (.ofReal M)).cost l =
      ((l * uj + (1 - l) * uk +
        √((c - (l • j + (1 - l) • k)) ⬝ᵥ M *ᵥ (c - (l • j + (1 - l) • k))) : ℝ) : EReal) := by
  have hsymm : M 1 0 = M 0 1 := by simpa using hM.apply 0 1
  have hq : ((k - j) ⬝ᵥ M *ᵥ (k - j)) * l * l + 2 * ((k - j) ⬝ᵥ M *ᵥ (c - k)) * l +
      (c - k) ⬝ᵥ M *ᵥ (c - k) =
        (c - (l • j + (1 - l) • k)) ⬝ᵥ M *ᵥ (c - (l • j + (1 - l) • k)) := by
    simp [mulVec, dotProduct, Fin.sum_univ_two, hsymm]
    ring
  simp only [Chord.of, Chord.cost, Chord.delta, Exact.ofReal_sub, Exact.form_ofReal, Exact.two_eq,
    Exact.upper_eq, Exact.zero_eq, ← EReal.coe_mul, ← EReal.coe_add, ← EReal.coe_sub,
    Exact.sqrt_max_zero, hq]
  congr 1
  ring

/-- In exact arithmetic two directions bound a wedge if their cross product exceeds a share of the
product of their lengths. -/
theorem isWedge_ofReal_of_tolerance (tol : ℝ) (c j k : Fin 2 → ℝ) :
    isWedge (.ofReal c) (.ofReal j) (.ofReal k) tol ↔
      tol * √((j - c) ⬝ᵥ (j - c)) * √((k - c) ⬝ᵥ (k - c)) <
        (j - c) 0 * (k - c) 1 - (j - c) 1 * (k - c) 0 := by
  simp only [isWedge, Exact.ofReal_sub, Exact.norm_ofReal, Exact.cross_ofReal, ← EReal.coe_mul,
    Exact.lt_iff, EReal.coe_lt_coe_iff]

theorem wedgeTolerance_eq : wedgeTolerance = ((1 / 10 ^ 12 : ℝ) : EReal) := by
  rw [wedgeTolerance, Exact.decimal_eq, Nat.cast_one]

theorem isWedge_ofReal (c j k : Fin 2 → ℝ) :
    isWedge (.ofReal c) (.ofReal j) (.ofReal k) ↔
      1 / 10 ^ 12 * √((j - c) ⬝ᵥ (j - c)) * √((k - c) ⬝ᵥ (k - c)) <
        (j - c) 0 * (k - c) 1 - (j - c) 1 * (k - c) 0 := by
  rw [wedgeTolerance_eq, isWedge_ofReal_of_tolerance]

/-- A seminorm is convex over a segment. -/
theorem seminorm_le_of_segment {l : ℝ} (h0 : 0 ≤ l) (h1 : l ≤ 1) :
    N (c - a) ≤ l * N (j - a) + (1 - l) * N (k - a) + N (c - (l • j + (1 - l) • k)) := by
  have hsum : c - a = (l • (j - a) + (1 - l) • (k - a)) + (c - (l • j + (1 - l) • k)) := by
    module
  calc N (c - a) ≤ N (l • (j - a) + (1 - l) • (k - a)) + N (c - (l • j + (1 - l) • k)) := by
        rw [hsum]
        exact map_add_le_add N _ _
    _ ≤ N (l • (j - a)) + N ((1 - l) • (k - a)) + N (c - (l • j + (1 - l) • k)) := by
        gcongr
        exact map_add_le_add N _ _
    _ = _ := by
        rw [map_smul_eq_mul, map_smul_eq_mul, Real.norm_of_nonneg h0,
          Real.norm_of_nonneg (sub_nonneg.mpr h1)]

section Seminorm

variable (hN : ∀ d, N d ≤ √(d ⬝ᵥ M *ᵥ d)) (hj : ((N (j - a) : ℝ) : EReal) ≤ uj)
include hN hj

/-- A line update does not undercut a distance that is nowhere longer than the metric. -/
theorem le_line_of_seminorm :
    ((N (c - a) : ℝ) : EReal) ≤ line (.ofReal c) (.ofReal j) uj (.ofReal M) := by
  have hsum : N (c - a) ≤ N (j - a) + N (c - j) := by
    have := map_add_le_add N (j - a) (c - j)
    rwa [sub_add_sub_comm, add_comm j c, add_sub_add_right_eq_sub] at this
  unfold line
  rw [Exact.ofReal_sub, Exact.length_ofReal]
  calc ((N (c - a) : ℝ) : EReal) ≤ (N (j - a) : ℝ) + (N (c - j) : ℝ) := by exact_mod_cast hsum
    _ ≤ _ := add_le_add hj (EReal.coe_le_coe_iff.mpr (hN _))

/-- Nor does a triangle update: the distance is convex over the chord, and the way on from it costs
at least its length. -/
theorem le_triangle_of_seminorm (hM : M.IsHermitian) (hk : ((N (k - a) : ℝ) : EReal) ≤ uk) :
    ((N (c - a) : ℝ) : EReal) ≤
      triangle (.ofReal c) (.ofReal j) uj (.ofReal k) uk (.ofReal M) := by
  obtain ⟨hj', hk'⟩ := le_triangle (c := .ofReal c) (j := .ofReal j) (k := .ofReal k)
    (m := .ofReal M) (Exact.isNaN_eq uj) (Exact.isNaN_eq uk) (Exact.isNaN_eq _)
  rw [Exact.le_iff] at hj' hk'
  -- an infinite time raises the update to infinity, so both times are real numbers from here on
  by_cases hjt : uj = ⊤
  · exact le_top.trans (hjt ▸ hj')
  by_cases hkt : uk = ⊤
  · exact le_top.trans (hkt ▸ hk')
  lift uj to ℝ using ⟨hjt, ((EReal.bot_lt_coe _).trans_le hj).ne'⟩
  lift uk to ℝ using ⟨hkt, ((EReal.bot_lt_coe _).trans_le hk).ne'⟩
  rw [EReal.coe_le_coe_iff] at hj hk
  obtain ⟨l, h0, h1, hleast⟩ := Chord.exists_least_eq
    (Chord.of (.ofReal c) (.ofReal j) uj (.ofReal k) uk (.ofReal M))
  have hvalue : (Chord.of (.ofReal c) (.ofReal j) uj (.ofReal k) uk (.ofReal M)).least ≤
      triangle (.ofReal c) (.ofReal j) uj (.ofReal k) uk (.ofReal M) := by
    unfold triangle Chord.value
    rw [Exact.upper_eq, Exact.upper_eq]
    exact (le_max_left _ _).trans (le_max_left _ _)
  refine le_trans ?_ hvalue
  rw [hleast, cost_of hM, EReal.coe_le_coe_iff]
  calc N (c - a) ≤ l * N (j - a) + (1 - l) * N (k - a) + N (c - (l • j + (1 - l) • k)) :=
        seminorm_le_of_segment h0 h1
    _ ≤ l * uj + (1 - l) * uk +
        √((c - (l • j + (1 - l) • k)) ⬝ᵥ M *ᵥ (c - (l • j + (1 - l) • k))) := by
        have := sub_nonneg.mpr h1
        gcongr
        exact hN _

end Seminorm

end Stencil

/-! ### Media of real numbers -/

def MetricField.ofReal (n : ℕ) (M : ℕ → Matrix (Fin 2) (Fin 2) ℝ) : MetricField EReal :=
  Array.ofFn fun c : Fin n => Tensor.ofReal (M c)

namespace Medium

/-- The medium has the centroids `x` and the tensors `M`, all of them real. -/
structure IsReal (m : Medium EReal) (x : ℕ → Fin 2 → ℝ) (M : ℕ → Matrix (Fin 2) (Fin 2) ℝ) :
    Prop where
  point : ∀ c < m.mesh.size, m.point c = .ofReal (x c)
  tensor : ∀ c < m.mesh.size, m.tensor c = .ofReal (M c)

variable {m : Medium EReal} {x : ℕ → Fin 2 → ℝ} {M : ℕ → Matrix (Fin 2) (Fin 2) ℝ}

theorem isReal_ofReal {mesh : Mesh EReal} (hx : ∀ c < mesh.size, mesh.point c = .ofReal (x c)) :
    IsReal ⟨mesh, .ofReal mesh.size M⟩ x M := by
  refine ⟨hx, fun c hc => ?_⟩
  have hc : c < mesh.size := hc
  simp [tensor, MetricField.ofReal, Array.getD, hc]

theorem IsReal.fromLine_eq (hm : m.IsReal x M) (hu : m.mesh.Undirected) {u : Array EReal} {c j : ℕ}
    (hj : j ∈ m.around c) {v : ℝ} (hv : u.getD j Scalar.inf = v) :
    m.fromLine u c j = ((v + √((x c - x j) ⬝ᵥ M c *ᵥ (x c - x j)) : ℝ) : EReal) := by
  have hc := hu.lt_left hj
  rw [fromLine, Stencil.line, hm.point c hc, hm.point j (hu.lt_right hj), hm.tensor c hc, hv,
    Exact.ofReal_sub, Exact.length_ofReal, ← EReal.coe_add]

/-- A distance to a cell is a barrier if it is nowhere longer than the metric of the medium. -/
theorem IsReal.isBarrier (hm : m.IsReal x M) (hu : m.mesh.Undirected)
    (hM : ∀ c < m.mesh.size, (M c).IsHermitian) {N : Seminorm ℝ (Fin 2 → ℝ)}
    (hN : ∀ c < m.mesh.size, ∀ d, N d ≤ √(d ⬝ᵥ M c *ᵥ d)) (a : ℕ) :
    m.IsBarrier fun c => ((N (x c - x a) : ℝ) : EReal) := by
  apply isBarrier_of_updates
  · intro u c j hj huj
    have hc := hu.lt_left hj
    rw [Exact.le_iff] at huj ⊢
    rw [fromLine, hm.point c hc, hm.point j (hu.lt_right hj), hm.tensor c hc]
    exact Stencil.le_line_of_seminorm (hN c hc) huj
  · intro u c p hp hu1 hu2
    obtain ⟨h1, h2⟩ := mem_of_mem_cyclicPairs hp
    have hc := hu.lt_left h1
    rw [Exact.le_iff] at hu1 hu2 ⊢
    unfold fromTriangle
    split
    · rw [hm.point c hc, hm.point p.1 (hu.lt_right h1), hm.point p.2 (hu.lt_right h2),
        hm.tensor c hc]
      exact Stencil.le_triangle_of_seminorm (hN c hc) hu1 (hM c hc) hu2
    · exact le_top

/-- A solve from a single start cell leaves no value below the distance to it. -/
theorem IsReal.above_solve (hm : m.IsReal x M) (hu : m.mesh.Undirected)
    (hM : ∀ c < m.mesh.size, (M c).IsHermitian) {M₀ : Matrix (Fin 2) (Fin 2) ℝ}
    (hM₀ : M₀.PosSemidef) (hle : ∀ c < m.mesh.size, ∀ d, d ⬝ᵥ M₀ *ᵥ d ≤ d ⬝ᵥ M c *ᵥ d) {a : ℕ}
    (hlt : ∀ c ∈ [a], c < m.mesh.size) {r r' : Run EReal} (hr : r.Sized m.mesh.size) {bound : ℤ}
    (h : r.solve m bound [a] = .ok r') :
    r'.Above fun c => ((√((x c - x a) ⬝ᵥ M₀ *ᵥ (x c - x a)) : ℝ) : EReal) := by
  have hN : ∀ c < m.mesh.size, ∀ d, lengthSeminorm M₀ hM₀ d ≤ √(d ⬝ᵥ M c *ᵥ d) := by
    intro c hc d
    rw [lengthSeminorm_apply]
    exact Real.sqrt_le_sqrt (hle c hc d)
  have hzero : ∀ c ∈ [a], Scalar.le ((lengthSeminorm M₀ hM₀ (x c - x a) : ℝ) : EReal)
      Scalar.zero := by simp
  obtain ⟨-, hend, -⟩ := (Run.invariant_above (hm.isBarrier hu hM hN a) (fun _ => Exact.isNaN_eq _)
    hzero).solve hu (List.nodup_singleton a) hlt hr bound
  simpa only [lengthSeminorm_apply] using (hend r' h).2.1

/-- Without rounding a line from a finite value leads to a finite value. -/
theorem IsReal.linesFinite (hm : m.IsReal x M) (hu : m.mesh.Undirected) (r : Run EReal) :
    r.LinesFinite m := by
  intro j _ hfin c hc
  rw [Exact.isFinite_iff] at hfin
  obtain ⟨v, hv⟩ : ∃ v : ℝ, r.solution.getD j Scalar.inf = (v : EReal) :=
    ⟨_, (EReal.coe_toReal hfin.1 hfin.2).symm⟩
  rw [hm.fromLine_eq hu (hu.symm hc) hv, Exact.isFinite_iff]
  exact ⟨EReal.coe_ne_top _, EReal.coe_ne_bot _⟩

end Medium

/-! ### Accepted fields -/

/-- Positive definite tensors pass the checks of a metric field. -/
theorem MetricField.ofArray_of_posDef {n : ℕ} {metric : NdArray EReal}
    {M : ℕ → Matrix (Fin 2) (Fin 2) ℝ} (h : tensors? n metric = some (ofReal n M))
    (hM : ∀ c < n, (M c).PosDef) : ofArray n metric = .ok (ofReal n M) := by
  refine ofArray_eq_ok_iff_accepted.mpr ⟨h, fun t ht => ?_⟩
  obtain ⟨c, rfl⟩ := Array.mem_ofFn.mp ht
  exact ⟨M c, rfl, .of_posDef (hM c c.isLt)⟩

namespace Solver

/-- In exact arithmetic a solve with the default bound returns. -/
theorem exists_returned {memory : Memory} {g : CellGrid EReal} {mesh : Mesh EReal}
    {s : Solver EReal} {metric : NdArray EReal} {starts : Json} {field : MetricField EReal}
    {cells : List ℕ} {x : ℕ → Fin 2 → ℝ} {M : ℕ → Matrix (Fin 2) (Fin 2) ℝ}
    (hg : Mesh.ofGrid memory g = .ok mesh) (hs : Reachable mesh s) (hb : s.bound? = none)
    (hin : s.checkInput metric starts = .ok (field, cells))
    (hm : Medium.IsReal ⟨mesh, field⟩ x M) : ∃ u, (s.solve metric starts).2 = .ok u := by
  obtain ⟨rfl, hsized⟩ := hs.sized
  obtain ⟨hasc, hlt⟩ := starts_of_checkInput hin
  have hu := Mesh.undirected_of_ofGrid hg
  have hbound := bound_of_none hb
  obtain ⟨r, hr, -⟩ := Run.exists_complete_solve (m := ⟨s.mesh, field⟩) hu
    (hasc.imp fun h => Nat.ne_of_lt h) hlt hsized (hm.linesFinite hu _)
  rw [(solve_eq hin).2, hbound, hr]
  exact ⟨r.solution, rfl⟩

/-! ### A small exact solver -/

/-- Two linked cells at distance one. -/
noncomputable def exactGrid : CellGrid EReal :=
  { dimensions := 2
    centroids := #[#[0, 0], #[1, 0]]
    links? := some [[.ok 1], [.ok 0]] }

noncomputable def exactMesh : Mesh EReal := .ofTable exactGrid.points #[[1], [0]]

/-- A metric in which steps along the x axis are twice as long. -/
noncomputable def exactMetric : NdArray EReal :=
  { shape := [2, 2, 2], items := #[(4 : ℝ), 0, 0, 1, (4 : ℝ), 0, 0, 1] }

theorem ofGrid_exactGrid : Mesh.ofGrid sampleMemory exactGrid = .ok exactMesh :=
  Mesh.ofGrid_of_linked rfl rfl (by decide +kernel)

theorem size_exactMesh : exactMesh.size = 2 := by
  simp [exactMesh, Mesh.size, Mesh.ofTable, exactGrid, CellGrid.points]

theorem point_exactMesh {c : ℕ} (hc : c < exactMesh.size) :
    exactMesh.point c = .ofReal ![(c : ℝ), 0] := by
  rw [size_exactMesh] at hc
  interval_cases c <;> simp [exactMesh, Mesh.point, Mesh.ofTable, exactGrid, CellGrid.points,
    CellGrid.planePoint, Vec.ofReal]

theorem tensors_exactMetric : MetricField.tensors? exactMesh.size exactMetric =
    some (.ofReal exactMesh.size fun _ => diagonal ![4, 1]) := by
  rw [size_exactMesh]
  simp [MetricField.tensors?, exactMetric, NdArray.groups, List.range_succ, MetricField.ofReal,
    Array.ofFn_succ, Tensor.ofReal]

theorem posDef_exactMetric : (diagonal ![(4 : ℝ), 1]).PosDef := by
  rw [posDef_diagonal_iff]
  intro i
  fin_cases i <;> simp

theorem startCells_exactMesh : startCells exactMesh.size sampleStarts = .ok [0] := by
  rw [size_exactMesh]
  rfl

/-! ### No undershoot -/

variable {memory : Memory} {g : CellGrid EReal} {mesh : Mesh EReal} {s : Solver EReal}
  {metric : NdArray EReal} {starts : Json} {a : ℕ} {x : ℕ → Fin 2 → ℝ}
  {M : ℕ → Matrix (Fin 2) (Fin 2) ℝ} {M₀ : Matrix (Fin 2) (Fin 2) ℝ}

/-- In exact arithmetic no time that a solve from a single start cell returns falls below the
distance to that cell in a constant metric that is nowhere longer than the metric of the field. With
the default bound the solve returns. -/
theorem no_undershoot (hg : Mesh.ofGrid memory g = .ok mesh) (hs : Reachable mesh s)
    (hx : ∀ c < mesh.size, mesh.point c = .ofReal (x c))
    (hM : MetricField.tensors? s.size metric = some (.ofReal mesh.size M))
    (hpos : ∀ c < mesh.size, (M c).PosDef) (hM₀ : M₀.PosSemidef)
    (hle : ∀ c < mesh.size, ∀ d, d ⬝ᵥ M₀ *ᵥ d ≤ d ⬝ᵥ M c *ᵥ d)
    (hstart : startCells s.size starts = .ok [a]) :
    (∀ u, (s.solve metric starts).2 = .ok u → ∀ c < mesh.size,
      ((√((x c - x a) ⬝ᵥ M₀ *ᵥ (x c - x a)) : ℝ) : EReal) ≤ u.getD c Scalar.inf) ∧
      (s.bound? = none → ∃ u, (s.solve metric starts).2 = .ok u) := by
  obtain ⟨rfl, hsized⟩ := hs.sized
  have hin : s.checkInput metric starts = .ok (.ofReal s.mesh.size M, [a]) :=
    checkInput_eq_ok_iff.mpr ⟨MetricField.ofArray_of_posDef hM hpos, hstart⟩
  obtain ⟨-, hlt⟩ := starts_of_checkInput hin
  have hu := Mesh.undirected_of_ofGrid hg
  have hreal : Medium.IsReal ⟨s.mesh, .ofReal s.mesh.size M⟩ x M := by
    refine ⟨hx, fun c hc => ?_⟩
    have hc : c < s.mesh.size := hc
    simp [Medium.tensor, MetricField.ofReal, Array.getD, hc]
  refine ⟨fun u hret c _ => ?_, fun hb => ?_⟩
  · -- the distance to the start cell is zero there, and no update undercuts it
    have hN : ∀ c < s.mesh.size, ∀ d, lengthSeminorm M₀ hM₀ d ≤ √(d ⬝ᵥ M c *ᵥ d) := by
      intro c hc d
      rw [lengthSeminorm_apply]
      exact Real.sqrt_le_sqrt (hle c hc d)
    have hbarrier := hreal.isBarrier hu (fun c hc => (hpos c hc).isHermitian) hN a
    have hzero : ∀ c ∈ [a], Scalar.le ((lengthSeminorm M₀ hM₀ (x c - x a) : ℝ) : EReal)
        Scalar.zero := by simp
    obtain ⟨-, hend, -⟩ := (Run.invariant_above hbarrier (fun _ => Exact.isNaN_eq _) hzero).solve
      hu (List.nodup_singleton a) hlt hsized s.bound
    obtain ⟨r, hr, -, rfl⟩ := exists_run_of_returned hin hret
    have habove : ((lengthSeminorm M₀ hM₀ (x c - x a) : ℝ) : EReal) ≤ r.valueOf c :=
      Exact.le_iff.mp ((hend r hr).2.1 c)
    rwa [lengthSeminorm_apply] at habove
  · have hbound := bound_of_none hb
    obtain ⟨r, hr, -⟩ := Run.exists_complete_solve hu (List.nodup_singleton a) hlt hsized
      (hreal.linesFinite hu _)
    rw [(solve_eq hin).2, hbound, hr]
    exact ⟨r.solution, rfl⟩

theorem no_undershoot_sample :
    ∃ u, ((new exactMesh none).solve exactMetric sampleStarts).2 = .ok u ∧
      2 ≤ u.getD 1 Scalar.inf := by
  have hpos : (diagonal ![(4 : ℝ), 1]).PosDef := by
    rw [posDef_diagonal_iff]
    intro i
    fin_cases i <;> simp
  have hstart : startCells exactMesh.size sampleStarts = .ok [0] := by
    rw [size_exactMesh]
    rfl
  obtain ⟨hbelow, hreturns⟩ := no_undershoot (s := new exactMesh none) (x := fun c => ![(c : ℝ), 0])
    (M := fun _ => diagonal ![4, 1]) ofGrid_exactGrid (.new none) (fun _ hc => point_exactMesh hc)
    tensors_exactMetric (fun _ _ => hpos) hpos.posSemidef (fun _ _ _ => le_rfl) hstart
  obtain ⟨u, hu⟩ := hreturns rfl
  have hdistance : √((![((1 : ℕ) : ℝ), 0] - ![((0 : ℕ) : ℝ), 0]) ⬝ᵥ diagonal ![4, 1] *ᵥ
      (![((1 : ℕ) : ℝ), 0] - ![((0 : ℕ) : ℝ), 0])) = 2 := by
    rw [Real.sqrt_eq_iff_mul_self_eq_of_pos two_pos]
    norm_num [diagonal, mulVec, dotProduct, Fin.sum_univ_two]
  have hu1 := hbelow u hu 1 (by rw [size_exactMesh]; decide)
  rw [hdistance] at hu1
  exact ⟨u, hu, hu1⟩

end Solver

end Eikonal
