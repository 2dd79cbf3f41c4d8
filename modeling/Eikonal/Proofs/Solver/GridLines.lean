import Eikonal.Proofs.Grid.Cartesian
import Eikonal.Proofs.Solver.Straight

/-! Grid lines through the source. The times of a solve lie on or above the distance to the start
cell. On a row or a column through the start cell they lie on it: the neighbour that a cell is
reached from is nearer to the start cell than the other neighbours, so it is accepted before any of
them, no two accepted neighbours bound a wedge then, and the line update from it counts. This holds
however long the one axis is in the metric against the other. -/

namespace Eikonal

open Matrix

namespace Run

variable {m : Medium EReal} {φ : ℕ → ℝ} {starts : List ℕ} {r : Run EReal} {c p : ℕ}

/-- A cell that the distance leads to straight from its nearest neighbour gets its distance. -/
theorem Straight.valueOf_eq (hr : r.Straight m starts) (hl : r.Linked m starts)
    (hu : m.mesh.Undirected) (habove : r.Above fun c => (φ c : EReal)) (hc : r.isAccepted c)
    (hcs : c ∉ starts) (hp : p ∈ m.around c) (hpa : r.isAccepted p) (hvp : r.valueOf p = φ p)
    (hlt : φ p < φ c) (hline : m.fromLine r.solution c p = φ c)
    (hother : ∀ d ∈ m.around c, d ≠ p → φ p < φ d) : r.valueOf c = φ c := by
  have hφ : ∀ d, (φ d : EReal) ≤ r.valueOf d := fun d => Exact.le_iff.mp (habove d)
  have hbefore : p ∈ r.acceptedBefore c := by
    refine (before_or_before ((hr.coherent.mem_order c).mpr hc)
      ((hr.coherent.mem_order p).mpr hpa) (hu.ne hp).symm).resolve_left fun h => ?_
    have hle := (hφ c).trans (Exact.le_iff.mp (hl.le_of_before hpa h))
    rw [hvp, EReal.coe_le_coe_iff] at hle
    exact hlt.not_ge hle
  have hle : ∀ d ∈ r.acceptedWith starts p, r.valueOf d ≤ φ p := by
    intro d hd
    rw [← hvp]
    rw [acceptedWith, List.mem_append, List.mem_append, List.mem_singleton] at hd
    rcases hd with hd | hd | rfl
    · rw [(hl.started d hd).2]
      exact Exact.le_iff.mp (hl.nonneg p (Or.inl hpa))
    · exact Exact.le_iff.mp (hl.le_of_before hpa hd)
    · exact le_rfl
  -- of the neighbours only `p` has been accepted by then
  have hself : ∀ d ∈ m.around c, d ∈ r.acceptedWith starts p → d = p := by
    intro d hd hdw
    by_contra hne
    have := (hφ d).trans (hle d hdw)
    rw [EReal.coe_le_coe_iff] at this
    exact (hother d hd hne).not_ge this
  have hno : m.NoTriangle r.solution (r.acceptedWith starts p) c := by
    intro q hq hqw
    have hpair := (Medium.mem_wedges.mp hq).1
    obtain ⟨h1, h2⟩ := mem_of_mem_cyclicPairs hpair
    exact absurd ((hself _ h1 hqw.1).trans (hself _ h2 hqw.2).symm)
      (ne_of_mem_cyclicPairs (hu.nodup c) hpair)
  refine le_antisymm ?_ (hφ c)
  rw [← hline]
  exact Exact.le_iff.mp (hr.le_line c p hcs (Or.inr hc) hp hbefore hno (Exact.isNaN_eq _))

end Run

/-- The number of steps from `i` to `k`. -/
def steps (k i : ℕ) : ℕ := ((i : ℤ) - k).natAbs

theorem exists_step {k i n s : ℕ} (hi : i < n) (hk : k < n) (h : steps k i = s + 1) :
    ∃ j < n, steps k j = s ∧ (j = i + 1 ∨ i = j + 1) := by
  unfold steps at *
  rcases Nat.lt_or_ge i k with hik | hik
  · exact ⟨i + 1, by omega, by omega, Or.inl rfl⟩
  · exact ⟨i - 1, by omega, by omega, by omega⟩

/-- The cells `cell 0`, `cell 1` and so on up to `n`, each next to the one before it, as they stand
in a row or a column. The distance `φ` to the cell number `k` grows by `w` with every step. -/
structure GridLine (m : Medium EReal) (φ : ℕ → ℝ) (n k : ℕ) (cell : ℕ → ℕ) (w : ℝ) : Prop where
  lt : k < n
  pos : 0 < w
  distance : ∀ i < n, φ (cell i) = w * steps k i
  near : ∀ i < n, ∀ j < n, j = i + 1 ∨ i = j + 1 → cell j ∈ m.around (cell i)
  fromLine : ∀ i < n, ∀ j < n, j = i + 1 ∨ i = j + 1 → ∀ (u : Array EReal) (v : ℝ),
    u.getD (cell j) Scalar.inf = v → m.fromLine u (cell i) (cell j) = ((v + w : ℝ) : EReal)
  nearest : ∀ i < n, ∀ j < n, steps k i = steps k j + 1 → j = i + 1 ∨ i = j + 1 →
    ∀ d ∈ m.around (cell i), d ≠ cell j → w * steps k j < φ d

theorem GridLine.exact {m : Medium EReal} {φ : ℕ → ℝ} {n k : ℕ} {cell : ℕ → ℕ} {w : ℝ}
    (h : GridLine m φ n k cell w) {r : Run EReal} (hr : r.Straight m [cell k])
    (hl : r.Linked m [cell k]) (hu : m.mesh.Undirected)
    (habove : r.Above fun c => (φ c : EReal))
    (hacc : ∀ c, r.isAccepted c ↔ c ∈ m.mesh.connected [cell k]) {i : ℕ} (hi : i < n) :
    r.isAccepted (cell i) ∧ r.valueOf (cell i) = φ (cell i) := by
  induction hs : steps k i generalizing i with
  | zero =>
    have hik : i = k := by
      unfold steps at hs
      omega
    obtain ⟨ha, hv⟩ := hl.started (cell k) (List.mem_singleton_self _)
    rw [h.distance i hi, hs, hik]
    exact ⟨ha, by simpa using hv⟩
  | succ s ih =>
    obtain ⟨j, hj, hjs, hji⟩ := exists_step hi h.lt hs
    obtain ⟨hja, hjv⟩ := ih hj hjs
    have hnear := h.near i hi j hj hji
    have hca : r.isAccepted (cell i) :=
      (hacc _).mpr (Mesh.mem_connected_of_around ((hacc _).mp hja) (hu.symm hnear))
    have hφj := h.distance j hj
    have hφi := h.distance i hi
    rw [hjs] at hφj
    rw [hs, Nat.cast_succ] at hφi
    have hw := h.pos
    refine ⟨hca, hr.valueOf_eq hl hu habove hca ?_ hnear hja hjv ?_ ?_ ?_⟩
    · -- the start cell is the only one at distance zero
      intro hstart
      have hzero := h.distance k h.lt
      rw [List.mem_singleton.mp hstart, hzero] at hφi
      simp only [steps, sub_self, Int.natAbs_zero, Nat.cast_zero, mul_zero] at hφi
      have hs0 : (0 : ℝ) ≤ s := Nat.cast_nonneg s
      nlinarith
    · rw [hφi, hφj]
      linarith
    · rw [h.fromLine i hi j hj hji _ _ hjv, hφi, hφj]
      congr 1
      ring
    · intro d hd hne
      rw [h.distance j hj]
      exact h.nearest i hi j hj (by rw [hs, hjs]) hji d hd hne

/-! ### Rows and columns -/

theorem steps_sq (k i : ℕ) : ((steps k i : ℕ) : ℝ) ^ 2 = ((i : ℝ) - k) ^ 2 := by
  have h : ((steps k i : ℕ) : ℤ) ^ 2 = ((i : ℤ) - k) ^ 2 := Int.natAbs_sq _
  exact_mod_cast h

theorem steps_eq_abs (k i : ℕ) : ((steps k i : ℕ) : ℝ) = |(i : ℝ) - k| := by
  rw [← abs_of_nonneg (Nat.cast_nonneg' (steps k i) : (0 : ℝ) ≤ steps k i),
    ← sq_eq_sq_iff_abs_eq_abs, steps_sq]

/-- Off the line, or farther out on it, the distance is greater. -/
theorem lt_sqrt_of_steps {w w' : ℝ} (hw : 0 < w) (hw' : 0 < w') {s x y : ℕ} (hsx : s ≤ x)
    (hy : x = s → y ≠ 0) : w * s < √((w * x) ^ 2 + (w' * y) ^ 2) := by
  apply Real.lt_sqrt_of_sq_lt
  rcases Nat.lt_or_ge s x with h | h
  · have hlt : (s : ℝ) < x := by exact_mod_cast h
    have hsq : (w * s) ^ 2 < (w * x) ^ 2 := by gcongr
    nlinarith [sq_nonneg (w' * y)]
  · have hxs : x = s := le_antisymm h hsx
    have hpos : (0 : ℝ) < y := by exact_mod_cast Nat.pos_of_ne_zero (hy hxs)
    rw [hxs]
    nlinarith [sq_nonneg (w * s), mul_pos hw' hpos]

section Cartesian

variable {nx ny : ℕ} {lx ly a b : ℝ}

noncomputable def gridPoint (nx ny : ℕ) (lx ly : ℝ) (c : ℕ) : Fin 2 → ℝ :=
  ![(2 * (c % nx) + 1 : ℕ) / (2 * nx : ℕ) * lx, (2 * (c / nx) + 1 : ℕ) / (2 * ny : ℕ) * ly]

theorem CellGrid.point_unmasked_ofReal (hx : 0 < nx) {c : ℕ} (hc : c < ny * nx) :
    (unmasked nx ny (lx : EReal) ly).points.getD c default = .ofReal (gridPoint nx ny lx ly c) := by
  have hnat : ∀ n : ℕ, (Scalar.natCast n : EReal) = ((n : ℝ) : EReal) := fun _ => rfl
  have hhalf : (Scalar.decimal 5 1 : EReal) = ((1 / 2 : ℝ) : EReal) := by
    rw [Exact.decimal_eq]
    norm_num
  have hdiv : ∀ p q : ℝ, (p : EReal) / (q : EReal) = ((p / q : ℝ) : EReal) := fun p q =>
    (EReal.coe_div p q).symm
  have hcentre : ∀ (i n : ℕ) (l : ℝ),
      ((i : ℝ) + 1 / 2) * (l / n) = (2 * i + 1 : ℕ) / (2 * n : ℕ) * l := by
    intro i n l
    push_cast
    ring
  rw [point_unmasked hx hc]
  simp only [hnat, hhalf, hdiv, ← EReal.coe_add, ← EReal.coe_mul, hcentre]
  rfl

/-- The form of a diagonal metric at the way between two cells. -/
theorem form_gridPoint (c s : ℕ) :
    (gridPoint nx ny lx ly c - gridPoint nx ny lx ly s) ⬝ᵥ diagonal ![a ^ 2, b ^ 2] *ᵥ
        (gridPoint nx ny lx ly c - gridPoint nx ny lx ly s) =
      (a * (lx / nx) * steps (s % nx) (c % nx)) ^ 2 +
        (b * (ly / ny) * steps (s / nx) (c / nx)) ^ 2 := by
  rw [mul_pow _ ((steps _ _ : ℕ) : ℝ), mul_pow _ ((steps _ _ : ℕ) : ℝ), steps_sq, steps_sq]
  simp [gridPoint, diagonal, mulVec, dotProduct, Fin.sum_univ_two]
  ring

/-- The distance from the cell in row `j₀` and column `i₀`, if a step costs `w` along a row and `w'`
along a column. -/
noncomputable def gridDistance (w w' : ℝ) (nx i₀ j₀ c : ℕ) : ℝ :=
  √((w * steps i₀ (c % nx)) ^ 2 + (w' * steps j₀ (c / nx)) ^ 2)

theorem gridDistance_row {w w' : ℝ} (hw : 0 < w) {i₀ j₀ c : ℕ} (hc : c / nx = j₀) :
    gridDistance w w' nx i₀ j₀ c = w * steps i₀ (c % nx) := by
  have hzero : steps j₀ (c / nx) = 0 := by
    unfold steps
    omega
  rw [gridDistance, hzero, Nat.cast_zero, mul_zero, zero_pow two_ne_zero, add_zero,
    Real.sqrt_sq (by positivity)]

theorem gridDistance_column {w w' : ℝ} (hw' : 0 < w') {i₀ j₀ c : ℕ} (hc : c % nx = i₀) :
    gridDistance w w' nx i₀ j₀ c = w' * steps j₀ (c / nx) := by
  have hzero : steps i₀ (c % nx) = 0 := by
    unfold steps
    omega
  rw [gridDistance, hzero, Nat.cast_zero, mul_zero, zero_pow two_ne_zero, zero_add,
    Real.sqrt_sq (by positivity)]

theorem steps_eq_one {k i : ℕ} (h : k = i + 1 ∨ i = k + 1) : steps k i = 1 := by
  unfold steps
  omega

/-- What the lines of a grid depend on: its cells touch their neighbours, be it at a corner, and a
line costs the distance of its ends. -/
structure Touching (m : Medium EReal) (nx ny : ℕ) (w w' : ℝ) : Prop where
  mem_around : ∀ c d, d ∈ m.around c ↔ (c < ny * nx ∧ d < ny * nx ∧ c ≠ d) ∧
    (c / nx ≤ d / nx + 1 ∧ d / nx ≤ c / nx + 1) ∧ c % nx ≤ d % nx + 1 ∧ d % nx ≤ c % nx + 1
  fromLine : ∀ (u : Array EReal) (c d : ℕ) (v : ℝ), d ∈ m.around c →
    u.getD d Scalar.inf = v →
      m.fromLine u c d = ((v + gridDistance w w' nx (d % nx) (d / nx) c : ℝ) : EReal)

theorem row_of_cell {i : ℕ} (hi : i < nx) (j : ℕ) :
    (j * nx + i) / nx = j ∧ (j * nx + i) % nx = i := by
  rw [Nat.mul_comm, Nat.mul_add_div (Nat.zero_lt_of_lt hi), Nat.mul_add_mod, Nat.div_eq_of_lt hi,
    Nat.mod_eq_of_lt hi]
  exact ⟨rfl, rfl⟩

section Lines

variable {m : Medium EReal} {w w' : ℝ} {i₀ j₀ : ℕ} (h : Touching m nx ny w w') (hw : 0 < w)
  (hw' : 0 < w') (hi₀ : i₀ < nx) (hj₀ : j₀ < ny)
include h hw hw' hi₀ hj₀

theorem Touching.row :
    GridLine m (gridDistance w w' nx i₀ j₀) nx i₀ (fun i => j₀ * nx + i) w := by
  have hnear : ∀ i < nx, ∀ j < nx, j = i + 1 ∨ i = j + 1 →
      j₀ * nx + j ∈ m.around (j₀ * nx + i) := by
    intro i hi j hj hji
    obtain ⟨hrow, hcolumn⟩ := row_of_cell hi j₀
    obtain ⟨hrow', hcolumn'⟩ := row_of_cell hj j₀
    rw [h.mem_around, hrow, hcolumn, hrow', hcolumn']
    exact ⟨⟨CellGrid.cell_lt hi hj₀, CellGrid.cell_lt hj hj₀, by omega⟩, by omega, by omega⟩
  refine ⟨hi₀, hw, fun i hi => ?_, hnear, ?_, ?_⟩
  · obtain ⟨hrow, hcolumn⟩ := row_of_cell hi j₀
    rw [gridDistance_row hw hrow, hcolumn]
  · intro i hi j hj hji u v hv
    obtain ⟨hrow, hcolumn⟩ := row_of_cell hi j₀
    obtain ⟨hrow', hcolumn'⟩ := row_of_cell hj j₀
    rw [h.fromLine u _ _ v (hnear i hi j hj hji) hv, gridDistance_row hw (hrow.trans hrow'.symm),
      hcolumn, hcolumn', steps_eq_one hji, Nat.cast_one, mul_one]
  · intro i hi j hj hs hji d hd hne
    obtain ⟨hrow, hcolumn⟩ := row_of_cell hi j₀
    obtain ⟨-, ⟨h1, h2⟩, h3, h4⟩ := (h.mem_around _ _).mp hd
    rw [hrow] at h1 h2
    rw [hcolumn] at h3 h4
    unfold steps at hs
    refine lt_sqrt_of_steps hw hw' (by unfold steps; omega) fun hsteps hzero => hne ?_
    unfold steps at *
    rw [← Nat.div_add_mod' d nx, show d / nx = j₀ by omega, show d % nx = j by omega]

theorem Touching.column :
    GridLine m (gridDistance w w' nx i₀ j₀) ny j₀ (fun j => j * nx + i₀) w' := by
  have hnear : ∀ i < ny, ∀ j < ny, j = i + 1 ∨ i = j + 1 →
      j * nx + i₀ ∈ m.around (i * nx + i₀) := by
    intro i hi j hj hji
    obtain ⟨hrow, hcolumn⟩ := row_of_cell hi₀ i
    obtain ⟨hrow', hcolumn'⟩ := row_of_cell hi₀ j
    rw [h.mem_around, hrow, hcolumn, hrow', hcolumn']
    refine ⟨⟨CellGrid.cell_lt hi₀ hi, CellGrid.cell_lt hi₀ hj, fun heq => ?_⟩, by omega, by omega⟩
    rw [heq, hrow'] at hrow
    omega
  refine ⟨hj₀, hw', fun i _ => ?_, hnear, ?_, ?_⟩
  · obtain ⟨hrow, hcolumn⟩ := row_of_cell hi₀ i
    rw [gridDistance_column hw' hcolumn, hrow]
  · intro i hi j hj hji u v hv
    obtain ⟨hrow, hcolumn⟩ := row_of_cell hi₀ i
    obtain ⟨hrow', hcolumn'⟩ := row_of_cell hi₀ j
    rw [h.fromLine u _ _ v (hnear i hi j hj hji) hv,
      gridDistance_column hw' (hcolumn.trans hcolumn'.symm), hrow, hrow', steps_eq_one hji,
      Nat.cast_one, mul_one]
  · intro i hi j hj hs hji d hd hne
    obtain ⟨hrow, hcolumn⟩ := row_of_cell hi₀ i
    obtain ⟨-, ⟨h1, h2⟩, h3, h4⟩ := (h.mem_around _ _).mp hd
    rw [hrow] at h1 h2
    rw [hcolumn] at h3 h4
    unfold steps at hs
    rw [gridDistance, add_comm]
    refine lt_sqrt_of_steps hw' hw (by unfold steps; omega) fun hsteps hzero => hne ?_
    unfold steps at *
    rw [← Nat.div_add_mod' d nx, show d / nx = j by omega, show d % nx = i₀ by omega]

end Lines

theorem exists_index_of_cartesian {α : Type} [Scalar α] {memory : Memory} {lx ly : α}
    {g : CellGrid α} (hgrid : CellGrid.cartesian memory nx ny lx ly none = .ok g) :
    ∃ index, g.index? = some index ∧
      ∀ j < ny, ∀ i < nx, index[j * nx + i]? = some ((j : ℤ), (i : ℤ)) := by
  obtain ⟨hx, rfl⟩ := CellGrid.cartesian_eq_unmasked hgrid
  refine ⟨_, CellGrid.index_unmasked hx, fun j hj i hi => ?_⟩
  obtain ⟨hrow, hcolumn⟩ := row_of_cell hi j
  rw [List.getElem?_map, List.getElem?_range (CellGrid.cell_lt hi hj), Option.map_some, hrow,
    hcolumn]

/-- A grid without a mask in a constant diagonal metric. -/
theorem touching_of_cartesian {memory : Memory} {g : CellGrid EReal} {mesh : Mesh EReal}
    (hgrid : CellGrid.cartesian memory nx ny (lx : EReal) ly none = .ok g)
    (hg : Mesh.ofGrid memory g = .ok mesh) : mesh.size = ny * nx ∧
      Medium.IsReal ⟨mesh, .ofReal mesh.size fun _ => diagonal ![a ^ 2, b ^ 2]⟩
        (gridPoint nx ny lx ly) (fun _ => diagonal ![a ^ 2, b ^ 2]) ∧
      Touching ⟨mesh, .ofReal mesh.size fun _ => diagonal ![a ^ 2, b ^ 2]⟩ nx ny (a * (lx / nx))
        (b * (ly / ny)) := by
  obtain ⟨hx, rfl⟩ := CellGrid.cartesian_eq_unmasked hgrid
  have hu := Mesh.undirected_of_ofGrid hg
  have hsize : mesh.size = ny * nx := by
    rw [Mesh.size_of_ofGrid hg, CellGrid.size_unmasked hx]
  have hreal : Medium.IsReal ⟨mesh, .ofReal mesh.size fun _ => diagonal ![a ^ 2, b ^ 2]⟩
      (gridPoint nx ny lx ly) fun _ => diagonal ![a ^ 2, b ^ 2] := by
    refine Medium.isReal_ofReal fun c hc => ?_
    rw [Mesh.point, Mesh.points_of_ofGrid hg, CellGrid.point_unmasked_ofReal hx (hsize ▸ hc)]
  refine ⟨hsize, hreal, ⟨fun c d => ?_, fun u c d v hd hv => ?_⟩⟩
  · obtain ⟨t, ht, rfl⟩ := Mesh.exists_table_of_ofGrid hg
    rw [← CellGrid.mem_row_unmasked hx ht]
    exact (Mesh.around_ofTable_perm _ _ _).mem_iff
  · rw [hreal.fromLine_eq hu hd hv, form_gridPoint, gridDistance]

end Cartesian

namespace Solver

variable {memory : Memory} {g : CellGrid EReal} {mesh : Mesh EReal} {s : Solver EReal}
  {metric : NdArray EReal} {starts : Json} {nx ny i₀ j₀ : ℕ} {lx ly a b : ℝ}

/-- In exact arithmetic a solve from a single start cell of a grid without a mask, in a constant
diagonal metric, is exact on the row and on the column of that cell. The cell in row `j` and column
`i` is the cell `j * nx + i`. With the default bound the solve returns. -/
theorem grid_lines_exact (hlx : 0 < lx) (hly : 0 < ly) (ha : 0 < a) (hb : 0 < b)
    (hgrid : CellGrid.cartesian memory nx ny (lx : EReal) ly none = .ok g)
    (hg : Mesh.ofGrid memory g = .ok mesh) (hs : Reachable mesh s)
    (hM : MetricField.tensors? s.size metric =
      some (.ofReal mesh.size fun _ => diagonal ![a ^ 2, b ^ 2]))
    (hi₀ : i₀ < nx) (hj₀ : j₀ < ny) (hstart : startCells s.size starts = .ok [j₀ * nx + i₀]) :
    (∃ index, g.index? = some index ∧
        ∀ j < ny, ∀ i < nx, index[j * nx + i]? = some ((j : ℤ), (i : ℤ))) ∧
      (∀ u, (s.solve metric starts).2 = .ok u →
      (∀ i < nx, u.getD (j₀ * nx + i) Scalar.inf = ((a * |(i : ℝ) - i₀| * lx / nx : ℝ) : EReal)) ∧
        ∀ j < ny, u.getD (j * nx + i₀) Scalar.inf = ((b * |(j : ℝ) - j₀| * ly / ny : ℝ) : EReal)) ∧
      (s.bound? = none → ∃ u, (s.solve metric starts).2 = .ok u) := by
  obtain ⟨rfl, hsized⟩ := hs.sized
  have hpos : (diagonal ![a ^ 2, b ^ 2]).PosDef := by
    rw [posDef_diagonal_iff]
    intro i
    fin_cases i <;> simp <;> positivity
  have hin : s.checkInput metric starts =
      .ok (.ofReal s.mesh.size fun _ => diagonal ![a ^ 2, b ^ 2], [j₀ * nx + i₀]) :=
    checkInput_eq_ok_iff.mpr ⟨MetricField.ofArray_of_posDef hM fun _ _ => hpos, hstart⟩
  obtain ⟨-, hlt⟩ := starts_of_checkInput hin
  have hn := List.nodup_singleton (j₀ * nx + i₀)
  have hu := Mesh.undirected_of_ofGrid hg
  obtain ⟨hsize, hreal, htouch⟩ := touching_of_cartesian hgrid hg
  refine ⟨exists_index_of_cartesian hgrid, fun u hret => ?_,
    fun hbound => exists_returned hg hs hbound hin hreal⟩
  obtain ⟨r, hr, -, rfl⟩ := exists_run_of_returned hin hret
  have hstraight := Run.straight_solve hu hn hlt hsized hr
  obtain ⟨hlinked, hempty⟩ := Run.linked_solve hu hn hlt hsized hr
  have hacc := fun c => hlinked.isAccepted_iff (c := c) hu (hlinked.coherent.isEmpty_iff.mp hempty)
  have habove : r.Above fun c =>
      (gridDistance (a * (lx / nx)) (b * (ly / ny)) nx i₀ j₀ c : EReal) := by
    have h := hreal.above_solve hu (fun _ _ => hpos.isHermitian) hpos.posSemidef
      (fun _ _ _ => le_rfl) hlt hsized hr
    obtain ⟨hrow₀, hcolumn₀⟩ := row_of_cell hi₀ j₀
    simp only [form_gridPoint, hrow₀, hcolumn₀] at h
    exact h
  have hw : 0 < a * (lx / nx) := by
    have : (0 : ℝ) < nx := by exact_mod_cast Nat.zero_lt_of_lt hi₀
    positivity
  have hw' : 0 < b * (ly / ny) := by
    have : (0 : ℝ) < ny := by exact_mod_cast Nat.zero_lt_of_lt hj₀
    positivity
  have hrow := htouch.row hw hw' hi₀ hj₀
  have hcolumn := htouch.column hw hw' hi₀ hj₀
  constructor
  · intro i hi
    rw [show r.solution.getD (j₀ * nx + i) Scalar.inf = _ from
      (hrow.exact hstraight hlinked hu habove hacc hi).2, hrow.distance i hi, steps_eq_abs]
    congr 1
    ring
  · intro j hj
    rw [show r.solution.getD (j * nx + i₀) Scalar.inf = _ from
      (hcolumn.exact hstraight hlinked hu habove hacc hj).2, hcolumn.distance j hj, steps_eq_abs]
    congr 1
    ring

/-- Four cells in a unit square. -/
noncomputable def squareGrid : CellGrid EReal := .unmasked 2 2 ((1 : ℝ) : EReal) (1 : ℝ)

noncomputable def squareMesh : Mesh EReal := .ofTable squareGrid.points squareGrid.sharing

theorem size_squareGrid : squareGrid.size = 4 := CellGrid.size_unmasked two_pos

theorem ofGrid_squareGrid : Mesh.ofGrid sampleMemory squareGrid = .ok squareMesh := by
  have hnodes : squareGrid.cellNodes =
      #[[0, 1, 4, 3], [1, 2, 5, 4], [3, 4, 7, 6], [4, 5, 8, 7]] := rfl
  have hcheck : squareGrid.checkNodes sampleMemory = .ok () := by
    refine CellGrid.checkNodes_eq_ok ?_
    rw [hnodes]
    decide +kernel
  have hneighbours : squareGrid.neighbours sampleMemory = .ok squareGrid.sharing := by
    have hlinks : squareGrid.links? = none := rfl
    unfold CellGrid.neighbours
    rw [hlinks]
    dsimp only
    rw [hcheck, size_squareGrid]
    rfl
  unfold Mesh.ofGrid
  rw [hneighbours]
  rfl

/-- The tensor with the eigenvalues 4 and 1 in all four cells. -/
noncomputable def squareMetric : NdArray EReal :=
  { shape := [16], items := exactMetric.items ++ exactMetric.items }

theorem grid_lines_exact_sample :
    ∃ u, ((new squareMesh none).solve squareMetric sampleStarts).2 = .ok u ∧
      u.getD 1 Scalar.inf = ((1 : ℝ) : EReal) ∧ u.getD 2 Scalar.inf = ((1 / 2 : ℝ) : EReal) := by
  have hsize : squareMesh.size = 4 := by
    rw [Mesh.size_of_ofGrid ofGrid_squareGrid]
    exact size_squareGrid
  have hM : MetricField.tensors? squareMesh.size squareMetric =
      some (.ofReal squareMesh.size fun _ => diagonal ![2 ^ 2, 1 ^ 2]) := by
    rw [hsize]
    norm_num [MetricField.tensors?, squareMetric, exactMetric, NdArray.groups, List.range_succ,
      MetricField.ofReal, Array.ofFn_succ, Tensor.ofReal]
  have hstart : startCells squareMesh.size sampleStarts = .ok [0 * 2 + 0] := by
    rw [hsize]
    rfl
  obtain ⟨-, hlines, hreturns⟩ := grid_lines_exact (s := new squareMesh none) (g := squareGrid)
    one_pos one_pos two_pos one_pos rfl ofGrid_squareGrid (.new none) hM two_pos two_pos hstart
  obtain ⟨u, hu⟩ := hreturns rfl
  obtain ⟨hrow, hcolumn⟩ := hlines u hu
  have h1 := hrow 1 one_lt_two
  have h2 := hcolumn 1 one_lt_two
  norm_num at h1 h2
  refine ⟨u, hu, by simpa [Array.getD_eq_getD_getElem?] using h1, ?_⟩
  simpa [Array.getD_eq_getD_getElem?] using h2

end Solver

end Eikonal
