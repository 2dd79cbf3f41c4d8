import Mathlib
import Eikonal.Proofs.FastMarching.Solution

/-! Travel times from a single seed through a medium of one slowness, in exact arithmetic. The time
of the straight way makes no node too steep, since it is convex with slope `s`. The time of the way
along the axes makes no node too flat, since it falls by a full step towards the seed. So the
computed time lies between the two, and on the row and the column of the seed it is exact. -/

namespace Eikonal.FastMarching

/-! ### Tables -/

namespace Field

variable {f : Field EReal} {φ : ℕ → ℕ → ℝ} {j i j' i' : ℕ} {s p q : ℝ}

/-- Times that are given by row and column. -/
noncomputable def table (f : Field EReal) (φ : ℕ → ℕ → ℝ) (k : ℕ) : EReal :=
  ((φ (k / f.columns) (k % f.columns) : ℝ) : EReal)

theorem table_node (hi : i < f.columns) : f.table φ (j * f.columns + i) = φ j i := by
  have hdiv : (j * f.columns + i) / f.columns = j := by
    rw [mul_comm, Nat.mul_add_div (Nat.zero_lt_of_lt hi), Nat.div_eq_of_lt hi, add_zero]
  rw [table, hdiv, Nat.mul_add_mod_of_lt hi]

theorem table_ne_top_and_ne_bot (f : Field EReal) (φ : ℕ → ℕ → ℝ) (k : ℕ) :
    f.table φ k ≠ ⊤ ∧ f.table φ k ≠ ⊥ := ⟨EReal.coe_ne_top _, EReal.coe_ne_bot _⟩

theorem lag_least_le {T : ℕ → EReal} {ks : List ℕ} {t b : ℝ} (hb : 0 ≤ b)
    (h : ∀ n ∈ ks, lag t (T n) ≤ b) : lag t (least T ks) ≤ b := by
  induction ks with
  | nil => simpa [least] using hb
  | cons k ks ih =>
    obtain ⟨hk, hks⟩ := List.forall_mem_cons.mp h
    rw [least]
    rcases min_choice (T k) (least T ks) with hm | hm
    · rwa [hm]
    · rw [hm]
      exact ih hks

theorem mem_beside_node (hi : i < f.columns) {n : ℕ} : n ∈ f.beside (j * f.columns + i) ↔
    ∃ i' < f.columns, (i' + 1 = i ∨ i' = i + 1) ∧ n = j * f.columns + i' := by
  rw [beside_node hi, List.mem_append]
  constructor
  · rintro (h | h)
    · split at h
      · exact ⟨i - 1, by omega, by omega, by simpa using h⟩
      · cases h
    · split at h
      · exact ⟨i + 1, by omega, by omega, by simpa using h⟩
      · cases h
  · rintro ⟨i', hi', rfl | rfl, rfl⟩
    · exact Or.inl (by simp)
    · exact Or.inr (by simp [hi'])

theorem mem_aboveBelow_node (hj : j < f.rows) (hi : i < f.columns) {n : ℕ} :
    n ∈ f.aboveBelow (j * f.columns + i) ↔
      ∃ j' < f.rows, (j' + 1 = j ∨ j' = j + 1) ∧ n = j' * f.columns + i := by
  rw [aboveBelow_node hi, List.mem_append]
  constructor
  · rintro (h | h)
    · split at h
      · exact ⟨j - 1, by omega, by omega, by simpa using h⟩
      · cases h
    · split at h
      · exact ⟨j + 1, by omega, by omega, by simpa using h⟩
      · cases h
  · rintro ⟨j', hj', rfl | rfl, rfl⟩
    · exact Or.inl (by simp)
    · exact Or.inr (by simp [hj'])

variable (hf : f.Regular)
include hf

/-- A table that rises by no more than `p` and `q` along the axes makes a node no steeper. -/
theorem Regular.steepness_table_le (hj : j < f.rows) (hi : i < f.columns) (hp : 0 ≤ p) (hq : 0 ≤ q)
    (hx : ∀ i', i' + 1 = i ∨ i' = i + 1 → φ j i - φ j i' ≤ p * f.steps.dx.toReal)
    (hy : ∀ j', j' + 1 = j ∨ j' = j + 1 → φ j i - φ j' i ≤ q * f.steps.dy.toReal) :
    f.steepness (f.table φ) (j * f.columns + i) (f.table φ (j * f.columns + i)).toReal ≤
      p ^ 2 + q ^ 2 := by
  have hdx := hf.toReal_dx_pos
  have hdy := hf.toReal_dy_pos
  rw [table_node hi, EReal.toReal_coe, steepness, FastMarching.steepness]
  have hbeside : lag (φ j i) (least (f.table φ) (f.beside (j * f.columns + i))) ≤
      p * f.steps.dx.toReal := by
    refine lag_least_le (by positivity) fun n hn => ?_
    obtain ⟨i', hi', hnear, rfl⟩ := (mem_beside_node hi).mp hn
    rw [table_node hi', lag_coe]
    exact max_le (hx i' hnear) (by positivity)
  have habove : lag (φ j i) (least (f.table φ) (f.aboveBelow (j * f.columns + i))) ≤
      q * f.steps.dy.toReal := by
    refine lag_least_le (by positivity) fun n hn => ?_
    obtain ⟨j', -, hnear, rfl⟩ := (mem_aboveBelow_node hj hi).mp hn
    rw [table_node hi, lag_coe]
    exact max_le (hy j' hnear) (by positivity)
  have hbot : ∀ n ∈ f.around (j * f.columns + i), f.table φ n ≠ ⊥ := fun n _ =>
    (f.table_ne_top_and_ne_bot φ n).2
  have hx0 := lag_nonneg (t := φ j i) (least_beside_ne_bot hbot)
  have hy0 := lag_nonneg (t := φ j i) (least_aboveBelow_ne_bot hbot)
  gcongr
  · exact (div_le_iff₀ hdx).mpr hbeside
  · exact (div_le_iff₀ hdy).mpr habove

/-- A table that falls by `s` along one of the axes makes a node no flatter. -/
theorem Regular.le_steepness_table (hj : j < f.rows) (hi : i < f.columns) (hs : 0 ≤ s)
    (h : (∃ i' < f.columns, (i' + 1 = i ∨ i' = i + 1) ∧ φ j i' + s * f.steps.dx.toReal ≤ φ j i) ∨
      ∃ j' < f.rows, (j' + 1 = j ∨ j' = j + 1) ∧ φ j' i + s * f.steps.dy.toReal ≤ φ j i) :
    s ^ 2 ≤ f.steepness (f.table φ) (j * f.columns + i)
      (f.table φ (j * f.columns + i)).toReal := by
  have hdx := hf.toReal_dx_pos
  have hdy := hf.toReal_dy_pos
  have hbot : ∀ n ∈ f.around (j * f.columns + i), f.table φ n ≠ ⊥ := fun n _ =>
    (f.table_ne_top_and_ne_bot φ n).2
  have hlag : ∀ {ks n x b}, n ∈ ks → f.table φ n = ((x : ℝ) : EReal) →
      least (f.table φ) ks ≠ ⊥ → x + b ≤ φ j i → b ≤ lag (φ j i) (least (f.table φ) ks) := by
    intro ks n x b hn hx hne hle
    refine le_trans ?_ (lag_anti hne (least_le hn))
    rw [hx, lag_coe]
    exact le_max_of_le_left (by linarith)
  have hx0 := sq_nonneg (lag (φ j i) (least (f.table φ) (f.beside (j * f.columns + i))) /
    f.steps.dx.toReal)
  have hy0 := sq_nonneg (lag (φ j i) (least (f.table φ) (f.aboveBelow (j * f.columns + i))) /
    f.steps.dy.toReal)
  rw [table_node hi, EReal.toReal_coe, steepness, FastMarching.steepness]
  rcases h with ⟨i', hi', hnear, hle⟩ | ⟨j', hj', hnear, hle⟩
  · have hstep := hlag ((mem_beside_node hi).mpr ⟨i', hi', hnear, rfl⟩) (table_node hi')
      (least_beside_ne_bot hbot) hle
    have := pow_le_pow_left₀ hs ((le_div_iff₀ hdx).mpr hstep) 2
    linarith
  · have hstep := hlag ((mem_aboveBelow_node hj hi).mpr ⟨j', hj', hnear, rfl⟩) (table_node hi)
      (least_aboveBelow_ne_bot hbot) hle
    have := pow_le_pow_left₀ hs ((le_div_iff₀ hdy).mpr hstep) 2
    linarith

end Field

/-! ### Two ways from the seed -/

section Ways

variable {dx dy s x y e : ℝ} {j₀ i₀ j i : ℕ}

/-- The time of the straight way between two nodes. -/
noncomputable def straightTime (dx dy s : ℝ) (j₀ i₀ j i : ℕ) : ℝ :=
  s * √(((i - i₀) * dx) ^ 2 + ((j - j₀) * dy) ^ 2)

/-- The time of the way along the axes. -/
noncomputable def axesTime (dx dy s : ℝ) (j₀ i₀ j i : ℕ) : ℝ :=
  s * (|(i : ℝ) - i₀| * dx + |(j : ℝ) - j₀| * dy)

/-- A step along one axis changes the distance by at most its share of the step. -/
theorem sqrt_sub_le (hpos : 0 < x ^ 2 + y ^ 2) :
    √(x ^ 2 + y ^ 2) - √((x + e) ^ 2 + y ^ 2) ≤ |x| / √(x ^ 2 + y ^ 2) * |e| := by
  have hr : 0 < √(x ^ 2 + y ^ 2) := Real.sqrt_pos.mpr hpos
  have hcauchy : x * (x + e) + y ^ 2 ≤ √(x ^ 2 + y ^ 2) * √((x + e) ^ 2 + y ^ 2) := by
    rw [← Real.sqrt_mul hpos.le]
    apply Real.le_sqrt_of_sq_le
    linarith [sq_nonneg (e * y)]
  have hshare : -(|x| * |e|) ≤ x * e := by
    rw [← abs_mul]
    exact neg_abs_le _
  rw [div_mul_eq_mul_div, le_div_iff₀ hr, sub_mul, Real.mul_self_sqrt hpos.le]
  linarith

/-- The shares of both axes make up the slowness. -/
theorem sq_shares (s : ℝ) (hpos : 0 < x ^ 2 + y ^ 2) :
    (s * (|x| / √(x ^ 2 + y ^ 2))) ^ 2 + (s * (|y| / √(x ^ 2 + y ^ 2))) ^ 2 = s ^ 2 := by
  rw [mul_pow, mul_pow, div_pow, div_pow, sq_abs, sq_abs, Real.sq_sqrt hpos.le, ← mul_add,
    ← add_div, div_self hpos.ne', mul_one]

theorem abs_step {n n' : ℕ} {d : ℝ} (hd : 0 < d) (h : n' + 1 = n ∨ n' = n + 1) :
    |((n' : ℝ) - n) * d| = d := by
  have hone : |(n' : ℝ) - n| = 1 := by
    rcases h with rfl | rfl
    · push_cast
      rw [sub_add_cancel_left, abs_neg, abs_one]
    · push_cast
      rw [add_sub_cancel_left, abs_one]
  rw [abs_mul, hone, one_mul, abs_of_pos hd]

theorem sq_distance_pos (hdx : 0 < dx) (hdy : 0 < dy) (hne : ¬(j = j₀ ∧ i = i₀)) :
    0 < (((i : ℝ) - i₀) * dx) ^ 2 + (((j : ℝ) - j₀) * dy) ^ 2 := by
  rcases not_and_or.mp hne with h | h
  · have : (j : ℝ) - j₀ ≠ 0 := sub_ne_zero.mpr (by exact_mod_cast h)
    positivity
  · have : (i : ℝ) - i₀ ≠ 0 := sub_ne_zero.mpr (by exact_mod_cast h)
    positivity

/-- The time of the straight way rises by at most `p` along the rows and `q` along the columns,
which are the parts of a gradient of length `s`. -/
theorem exists_straightTime_sub_le (hdx : 0 < dx) (hdy : 0 < dy) (hs : 0 ≤ s)
    (hne : ¬(j = j₀ ∧ i = i₀)) : ∃ p q, 0 ≤ p ∧ 0 ≤ q ∧ p ^ 2 + q ^ 2 = s ^ 2 ∧
      (∀ i', i' + 1 = i ∨ i' = i + 1 →
        straightTime dx dy s j₀ i₀ j i - straightTime dx dy s j₀ i₀ j i' ≤ p * dx) ∧
      ∀ j', j' + 1 = j ∨ j' = j + 1 →
        straightTime dx dy s j₀ i₀ j i - straightTime dx dy s j₀ i₀ j' i ≤ q * dy := by
  have hpos := sq_distance_pos hdx hdy hne
  unfold straightTime
  set x := ((i : ℝ) - i₀) * dx with hx
  set y := ((j : ℝ) - j₀) * dy with hy
  refine ⟨s * (|x| / √(x ^ 2 + y ^ 2)), s * (|y| / √(x ^ 2 + y ^ 2)), by positivity, by positivity,
    sq_shares s hpos, fun i' hi' => ?_, fun j' hj' => ?_⟩
  · have hstep := sqrt_sub_le (e := ((i' : ℝ) - i) * dx) hpos
    rw [abs_step hdx hi', show x + ((i' : ℝ) - i) * dx = (i' - i₀) * dx by rw [hx]; ring] at hstep
    rw [← mul_sub, mul_assoc]
    exact mul_le_mul_of_nonneg_left hstep hs
  · rw [add_comm] at hpos
    have hstep := sqrt_sub_le (e := ((j' : ℝ) - j) * dy) hpos
    rw [abs_step hdy hj', show y + ((j' : ℝ) - j) * dy = (j' - j₀) * dy by rw [hy]; ring,
      add_comm (y ^ 2), add_comm ((((j' : ℝ) - j₀) * dy) ^ 2)] at hstep
    rw [← mul_sub, mul_assoc]
    exact mul_le_mul_of_nonneg_left hstep hs

/-- Away from a place there is a step towards it. -/
theorem exists_step_towards {n n₀ m : ℕ} (hn : n < m) (hn₀ : n₀ < m) (hne : n ≠ n₀) :
    ∃ n' < m, (n' + 1 = n ∨ n' = n + 1) ∧ |(n' : ℝ) - n₀| = |(n : ℝ) - n₀| - 1 := by
  rcases Nat.lt_or_gt_of_ne hne with h | h
  · refine ⟨n + 1, by omega, Or.inr rfl, ?_⟩
    have h1 : (n : ℝ) + 1 ≤ n₀ := by exact_mod_cast h
    push_cast
    rw [abs_of_nonpos (by linarith), abs_of_nonpos (by linarith)]
    ring
  · obtain ⟨n, rfl⟩ := Nat.exists_eq_succ_of_ne_zero (Nat.ne_zero_of_lt h)
    refine ⟨n, by omega, Or.inl rfl, ?_⟩
    have h1 : (n₀ : ℝ) ≤ n := by exact_mod_cast Nat.le_of_lt_succ h
    push_cast
    rw [abs_of_nonneg (by linarith), abs_of_nonneg (by linarith)]
    ring

/-- Towards the seed the time of the way along the axes falls by a full step. -/
theorem exists_axesTime_add_le {rows columns : ℕ} (hj : j < rows) (hi : i < columns)
    (hj₀ : j₀ < rows) (hi₀ : i₀ < columns) (hne : ¬(j = j₀ ∧ i = i₀)) :
    (∃ i' < columns, (i' + 1 = i ∨ i' = i + 1) ∧
        axesTime dx dy s j₀ i₀ j i' + s * dx ≤ axesTime dx dy s j₀ i₀ j i) ∨
      ∃ j' < rows, (j' + 1 = j ∨ j' = j + 1) ∧
        axesTime dx dy s j₀ i₀ j' i + s * dy ≤ axesTime dx dy s j₀ i₀ j i := by
  unfold axesTime
  rcases not_and_or.mp hne with h | h
  · obtain ⟨j', hj', hnear, habs⟩ := exists_step_towards hj hj₀ h
    refine Or.inr ⟨j', hj', hnear, le_of_eq ?_⟩
    rw [habs]
    ring
  · obtain ⟨i', hi', hnear, habs⟩ := exists_step_towards hi hi₀ h
    refine Or.inl ⟨i', hi', hnear, le_of_eq ?_⟩
    rw [habs]
    ring

end Ways

/-! ### Travel times -/

namespace Field.IsSolution

variable {f : Field EReal} {seeds : Array Bool} {T : ℕ → EReal} {dx dy s : ℝ} {j₀ i₀ : ℕ}

/-- A solution for a single seed and one slowness lies between the times of the two ways. -/
theorem between (hT : f.IsSolution seeds T) (hf : f.Regular)
    (hsteps : f.steps = ⟨(dx : EReal), (dy : EReal)⟩) (hs : 0 < s)
    (hslow : ∀ k < f.size, f.slownessAt k = s) (hj₀ : j₀ < f.rows) (hi₀ : i₀ < f.columns)
    (hseed : ∀ j < f.rows, ∀ i < f.columns,
      (seeds.getD (j * f.columns + i) false ↔ j = j₀ ∧ i = i₀)) :
    ∀ j < f.rows, ∀ i < f.columns,
      (straightTime dx dy s j₀ i₀ j i : EReal) ≤ T (j * f.columns + i) ∧
      T (j * f.columns + i) ≤ axesTime dx dy s j₀ i₀ j i := by
  have hdx : f.steps.dx.toReal = dx := by rw [hsteps, EReal.toReal_coe]
  have hdy : f.steps.dy.toReal = dy := by rw [hsteps, EReal.toReal_coe]
  have hdx_pos : 0 < dx := hdx ▸ hf.toReal_dx_pos
  have hdy_pos : 0 < dy := hdy ▸ hf.toReal_dy_pos
  have hpos : ∀ k < f.size, 0 < f.slownessAt k := fun k hk => (hslow k hk).symm ▸ hs
  have hother : ∀ {j i}, j < f.rows → i < f.columns →
      seeds.getD (j * f.columns + i) false = false → ¬(j = j₀ ∧ i = i₀) := by
    intro j i hj hi hfalse hplace
    rw [(hseed j hj i hi).mpr hplace] at hfalse
    cases hfalse
  have hzero : ∀ {j i}, j < f.rows → i < f.columns → seeds.getD (j * f.columns + i) false →
      T (j * f.columns + i) = 0 ∧ j = j₀ ∧ i = i₀ := fun hj hi h =>
    ⟨hT.seed _ (f.node_lt hj hi) h, (hseed _ hj _ hi).mp h⟩
  have hlow := hf.le_of_steepness (A := f.table (straightTime dx dy s j₀ i₀)) seeds hpos
    (fun k _ => f.table_ne_top_and_ne_bot _ k) hT.ne_top_and_ne_bot
    (forall_node.mpr fun j hj i hi h => by
      obtain ⟨hvalue, rfl, rfl⟩ := hzero hj hi h
      rw [hvalue, table_node hi]
      simp [straightTime])
    (forall_node.mpr fun j hj i hi h => by
      obtain ⟨p, q, hp, hq, hsum, hx, hy⟩ :=
        exists_straightTime_sub_le hdx_pos hdy_pos hs.le (hother hj hi h)
      rw [hslow _ (f.node_lt hj hi), ← hsum]
      exact hf.steepness_table_le hj hi hp hq (hdx ▸ hx) (hdy ▸ hy))
    fun k hk h => (hT.solves k hk h).ge
  have hhigh := hf.le_of_steepness (B := f.table (axesTime dx dy s j₀ i₀)) seeds hpos
    hT.ne_top_and_ne_bot (fun k _ => f.table_ne_top_and_ne_bot _ k)
    (forall_node.mpr fun j hj i hi h => by
      obtain ⟨hvalue, rfl, rfl⟩ := hzero hj hi h
      rw [hvalue, table_node hi]
      simp [axesTime])
    (fun k hk h => (hT.solves k hk h).le)
    (forall_node.mpr fun j hj i hi h => by
      rw [hslow _ (f.node_lt hj hi)]
      refine hf.le_steepness_table hj hi hs.le ?_
      rw [hdx, hdy]
      exact exists_axesTime_add_le hj hi hj₀ hi₀ (hother hj hi h))
  intro j hj i hi
  have hk := f.node_lt hj hi
  exact ⟨table_node (φ := straightTime dx dy s j₀ i₀) hi ▸ hlow _ hk,
    table_node (φ := axesTime dx dy s j₀ i₀) hi ▸ hhigh _ hk⟩

end Field.IsSolution

/-- Travel times from a single seed through a medium of one slowness lie between the time of the
straight way and the time of the way along the axes. On the row and the column of the seed the two
agree. -/
theorem travelTime_between {rows columns j₀ i₀ : ℕ} {dx dy s : ℝ} {seeds : NdArray Bool}
    {slowness : NdArray EReal} {table : Array EReal} (hshape : seeds.shape = [rows, columns])
    (hsize : seeds.items.size = rows * columns) (hj₀ : j₀ < rows) (hi₀ : i₀ < columns)
    (hseed : ∀ j < rows, ∀ i < columns,
      (seeds.items.getD (j * columns + i) false ↔ j = j₀ ∧ i = i₀))
    (hdx : 0 < dx) (hdy : 0 < dy) (hs : 0 < s)
    (htable : slowness.spreadTable rows columns = .ok table)
    (hitems : slowness.items.size = slowness.shape.prod) (hslow : ∀ x ∈ slowness.items, x = s) :
    ∃ T, travelTime seeds ⟨(dx : EReal), (dy : EReal)⟩ slowness =
        .ok { shape := [rows, columns], items := T } ∧
      (∀ j < rows, ∀ i < columns,
        ((s * √(((i - i₀) * dx) ^ 2 + ((j - j₀) * dy) ^ 2) : ℝ) : EReal) ≤ entry columns T j i ∧
          entry columns T j i ≤ ((s * (|(i : ℝ) - i₀| * dx + |(j : ℝ) - j₀| * dy) : ℝ) : EReal)) ∧
      (∀ i < columns, entry columns T j₀ i = ((s * (|(i : ℝ) - i₀| * dx) : ℝ) : EReal)) ∧
      ∀ j < rows, entry columns T j i₀ = ((s * (|(j : ℝ) - j₀| * dy) : ℝ) : EReal) := by
  obtain ⟨htsize, htmem⟩ := NdArray.spreadTable_spec htable hitems
  have hall : ∀ x ∈ table, x = (s : EReal) := fun x hx => hslow x (htmem x hx)
  let f : Field EReal := ⟨rows, columns, ⟨(dx : EReal), (dy : EReal)⟩, table⟩
  have hf : f.Regular :=
    { dx_pos := EReal.coe_pos.mpr hdx
      dx_lt_top := EReal.coe_lt_top dx
      dy_pos := EReal.coe_pos.mpr hdy
      dy_lt_top := EReal.coe_lt_top dy
      slowness_nonneg := fun x hx => hall x hx ▸ EReal.coe_nonneg.mpr hs.le
      slowness_lt_top := fun x hx => hall x hx ▸ EReal.coe_lt_top s }
  have hslowAt : ∀ k < f.size, f.slownessAt k = s := by
    intro k hk
    have hk' : k < table.size := htsize ▸ hk
    rw [← EReal.coe_eq_coe_iff, hf.coe_slownessAt]
    simpa [f, hk'] using hall _ (Array.getElem_mem hk')
  have hmem : true ∈ seeds.items := by
    have hget := (hseed j₀ hj₀ i₀ hi₀).mpr ⟨rfl, rfl⟩
    have hlt : j₀ * columns + i₀ < seeds.items.size := hsize ▸ f.node_lt hj₀ hi₀
    rw [Array.getD_eq_getD_getElem?, Array.getElem?_eq_getElem hlt, Option.getD_some] at hget
    exact hget ▸ Array.getElem_mem hlt
  obtain ⟨m, p, hm, hlead, rfl, hdone⟩ := Stage.exists_advance hf hsize
  have hsolution := Stage.isSolution_of_done hf hsize (hlead.mono least_of_first) hdone hmem
  have hbetween : ∀ j < rows, ∀ i < columns,
      (straightTime dx dy s j₀ i₀ j i : EReal) ≤ entry columns p.march.value j i ∧
        entry columns p.march.value j i ≤ axesTime dx dy s j₀ i₀ j i :=
    hsolution.between hf rfl hs hslowAt hj₀ hi₀ hseed
  refine ⟨p.march.value, ?_, hbetween, fun i hi => ?_, fun j hj => ?_⟩
  · unfold travelTime
    rw [hshape]
    simp only [htable]
    rw [arrivals, hm]
    rfl
  · obtain ⟨hlow, hhigh⟩ := hbetween j₀ hj₀ i hi
    have hrow : straightTime dx dy s j₀ i₀ j₀ i = s * (|(i : ℝ) - i₀| * dx) := by
      rw [straightTime, sub_self, zero_mul, zero_pow two_ne_zero, add_zero, Real.sqrt_sq_eq_abs,
        abs_mul, abs_of_pos hdx]
    rw [axesTime, sub_self, abs_zero, zero_mul, add_zero] at hhigh
    exact le_antisymm hhigh (hrow ▸ hlow)
  · obtain ⟨hlow, hhigh⟩ := hbetween j hj i₀ hi₀
    have hcolumn : straightTime dx dy s j₀ i₀ j i₀ = s * (|(j : ℝ) - j₀| * dy) := by
      rw [straightTime, sub_self, zero_mul, zero_pow two_ne_zero, zero_add, Real.sqrt_sq_eq_abs,
        abs_mul, abs_of_pos hdy]
    rw [axesTime, sub_self, abs_zero, zero_mul, zero_add] at hhigh
    exact le_antisymm hhigh (hcolumn ▸ hlow)

theorem travelTime_between_sample :
    ∃ T, travelTime { shape := [2, 2], items := #[false, true, false, false] }
        ⟨((3 : ℝ) : EReal), ((4 : ℝ) : EReal)⟩ (NdArray.scalar ((2 : ℝ) : EReal)) =
          .ok { shape := [2, 2], items := T } ∧
      entry 2 T 0 0 = ((6 : ℝ) : EReal) ∧ entry 2 T 1 1 = ((8 : ℝ) : EReal) ∧
      ((10 : ℝ) : EReal) ≤ entry 2 T 1 0 ∧ entry 2 T 1 0 ≤ ((14 : ℝ) : EReal) := by
  obtain ⟨T, htime, hbetween, hrow, hcolumn⟩ := travelTime_between (s := 2)
    (show ({ shape := [2, 2], items := #[false, true, false, false] } : NdArray Bool).shape = [2, 2]
      from rfl)
    rfl (show 0 < 2 from two_pos) (show 1 < 2 from one_lt_two) (by decide)
    (show (0 : ℝ) < 3 by norm_num) (show (0 : ℝ) < 4 by norm_num) two_pos
    (show (NdArray.scalar ((2 : ℝ) : EReal)).spreadTable 2 2 =
      .ok #[((2 : ℝ) : EReal), ((2 : ℝ) : EReal), ((2 : ℝ) : EReal), ((2 : ℝ) : EReal)] from rfl)
    rfl fun x hx => by simpa [NdArray.scalar] using hx
  have h00 := hrow 0 two_pos
  have h11 := hcolumn 1 one_lt_two
  have h10 := hbetween 1 one_lt_two 0 two_pos
  simp only [Nat.cast_zero, Nat.cast_one, zero_sub, sub_zero, abs_neg, abs_one,
    one_mul] at h00 h11 h10
  norm_num at h00 h11 h10
  exact ⟨T, htime, h00, h11, h10⟩

end Eikonal.FastMarching
