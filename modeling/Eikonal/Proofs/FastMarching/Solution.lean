import Mathlib
import Eikonal.Proofs.FastMarching.Causal

/-! Travel times as the solution of the upwind scheme, in exact arithmetic and read row by row. The
travel times are finite, vanish on the seeds and satisfy the upwind equation everywhere else, with
the least final values beside a node along either axis. No other finite array does, so it is of no
consequence which of several entries of the least value is taken first. -/

namespace Eikonal

/-! ### Slowness tables -/

namespace NdArray

variable {α : Type} {a : NdArray α} {m n : Nat} {s : Array α}

/-- A table whose axes are those of an array or repeat an axis of size one finds an item of the
array for every place. -/
theorem pick_spec {items : Array α} {rows columns : Nat} (hsize : items.size = rows * columns)
    (hrows : rows = m ∨ rows = 1) (hcolumns : columns = n ∨ columns = 1) :
    let s := ((List.range (m * n)).filterMap fun k =>
      items[(if rows = 1 then 0 else k / n) * columns +
        (if columns = 1 then 0 else k % n)]?).toArray
    s.size = m * n ∧ ∀ x ∈ s, x ∈ items := by
  refine ⟨?_, fun x hx => ?_⟩
  · rw [List.size_toArray, List.length_filterMap_eq_countP]
    refine (List.countP_eq_length.mpr fun k hk => ?_).trans List.length_range
    have hk := List.mem_range.mp hk
    have hn : 0 < n := Nat.pos_of_ne_zero fun h0 => by simp [h0] at hk
    have hrow : (if rows = 1 then 0 else k / n) < rows := by
      split
      · omega
      · rw [hrows.resolve_right ‹_›]
        exact Nat.div_lt_of_lt_mul (by rwa [mul_comm])
    have hcolumn : (if columns = 1 then 0 else k % n) < columns := by
      split
      · omega
      · rw [hcolumns.resolve_right ‹_›]
        exact Nat.mod_lt k hn
    have hlt := Nat.mul_le_mul_right columns (Nat.succ_le_of_lt hrow)
    rw [Nat.succ_mul] at hlt
    rw [Array.getElem?_eq_getElem (by omega)]
    rfl
  · simp only [List.mem_toArray, List.mem_filterMap] at hx
    obtain ⟨k, -, hk⟩ := hx
    exact Array.mem_of_getElem? hk

theorem spreadTable_spec (h : a.spreadTable m n = .ok s) (hsize : a.items.size = a.shape.prod) :
    s.size = m * n ∧ ∀ x ∈ s, x ∈ a.items := by
  unfold spreadTable at h
  dsimp only at h
  split at h
  · rename_i hshape
    rw [hshape] at hsize
    split at h
    · rename_i hc
      cases h
      exact pick_spec (by simpa using hsize) (Or.inr rfl) (Or.inr rfl)
    · cases h
  · rename_i columns hshape
    rw [hshape] at hsize
    split at h
    · rename_i hc
      cases h
      simp only [Bool.and_eq_true, Bool.or_eq_true, decide_eq_true_eq] at hc
      exact pick_spec (by simpa using hsize) (Or.inr rfl) hc.2
    · cases h
  · rename_i rows columns hshape
    rw [hshape] at hsize
    split at h
    · rename_i hc
      cases h
      simp only [Bool.and_eq_true, Bool.or_eq_true, decide_eq_true_eq] at hc
      exact pick_spec (by simpa using hsize) hc.1 hc.2
    · cases h
  · cases h

end NdArray

namespace FastMarching

/-! ### The upwind equation -/

/-- The value in row `j` and column `i` of a table; infinity outside. -/
noncomputable def entry (columns : Nat) (T : Array EReal) (j i : Nat) : EReal :=
  T.getD (j * columns + i) ⊤

/-- The least value before and after a place in its row; infinity if there is none. -/
noncomputable def besideX (columns : Nat) (T : Array EReal) (j i : Nat) : EReal :=
  min (if 0 < i then entry columns T j (i - 1) else ⊤)
    (if i + 1 < columns then entry columns T j (i + 1) else ⊤)

/-- The least value above and below a place; infinity if there is none. -/
noncomputable def besideY (rows columns : Nat) (T : Array EReal) (j i : Nat) : EReal :=
  min (if 0 < j then entry columns T (j - 1) i else ⊤)
    (if j + 1 < rows then entry columns T (j + 1) i else ⊤)

/-- Finite arrival times that vanish on the seeds and satisfy the upwind equation of a slowness
table elsewhere. -/
structure Solves (rows columns : Nat) (dx dy : ℝ) (seeds : Array Bool) (s T : Array EReal) :
    Prop where
  size : T.size = rows * columns
  ne_top : ∀ j < rows, ∀ i < columns, entry columns T j i ≠ ⊤
  ne_bot : ∀ j < rows, ∀ i < columns, entry columns T j i ≠ ⊥
  seed : ∀ j < rows, ∀ i < columns, seeds.getD (j * columns + i) false → entry columns T j i = 0
  upwind : ∀ j < rows, ∀ i < columns, seeds.getD (j * columns + i) false = false →
    (max (entry columns T j i - besideX columns T j i) 0 / (dx : EReal)) ^ 2 +
      (max (entry columns T j i - besideY rows columns T j i) 0 / (dy : EReal)) ^ 2 =
        entry columns s j i ^ 2

theorem steepness_eq_iff {dx dy t s : ℝ} {tx ty : EReal} (hx : tx ≠ ⊥) (hy : ty ≠ ⊥) :
    steepness dx dy t tx ty = s ^ 2 ↔
      (max ((t : EReal) - tx) 0 / (dx : EReal)) ^ 2 +
        (max ((t : EReal) - ty) 0 / (dy : EReal)) ^ 2 = (s : EReal) ^ 2 := by
  rw [← coe_lag hx, ← coe_lag hy, ← EReal.coe_div, ← EReal.coe_div, ← EReal.coe_pow,
    ← EReal.coe_pow, ← EReal.coe_pow, ← EReal.coe_add, EReal.coe_eq_coe_iff]
  rfl

section Equation

variable {f : Field EReal} {dx dy : ℝ} {seeds : Array Bool} {T : Array EReal} {j i : Nat}

theorem least_beside (hi : i < f.columns) :
    least (T.getD · ⊤) (f.beside (j * f.columns + i)) = besideX f.columns T j i := by
  rw [Field.beside_node hi, besideX]
  unfold entry
  split <;> split <;> simp [least]

theorem least_aboveBelow (hi : i < f.columns) :
    least (T.getD · ⊤) (f.aboveBelow (j * f.columns + i)) = besideY f.rows f.columns T j i := by
  rw [Field.aboveBelow_node hi, besideY]
  unfold entry
  split <;> split <;> simp [least]

variable (hf : f.Regular) (hsteps : f.steps = ⟨(dx : EReal), (dy : EReal)⟩)
  (hs : f.slowness.size = f.size)
include hf hsteps hs

/-- The equation of a node, in its row and column. -/
theorem solves_node_iff (hj : j < f.rows) (hi : i < f.columns)
    (htop : ∀ k < f.size, T.getD k ⊤ ≠ ⊤) (hbot : ∀ k < f.size, T.getD k ⊤ ≠ ⊥) :
    f.steepness (T.getD · ⊤) (j * f.columns + i) (entry f.columns T j i).toReal =
        f.slownessAt (j * f.columns + i) ^ 2 ↔
      (max (entry f.columns T j i - besideX f.columns T j i) 0 / (dx : EReal)) ^ 2 +
        (max (entry f.columns T j i - besideY f.rows f.columns T j i) 0 / (dy : EReal)) ^ 2 =
          entry f.columns f.slowness j i ^ 2 := by
  have hk := f.node_lt hj hi
  have haround : ∀ n ∈ f.around (j * f.columns + i), T.getD n ⊤ ≠ ⊥ := fun n hn =>
    hbot n (Field.lt_of_mem_around hk hn)
  have hx := Field.least_beside_ne_bot haround
  have hy := Field.least_aboveBelow_ne_bot haround
  have hslow : f.slowness.getD (j * f.columns + i) Scalar.one = entry f.columns f.slowness j i := by
    simp [entry, hs, hk]
  have hcoe : ((entry f.columns T j i).toReal : EReal) = entry f.columns T j i :=
    EReal.coe_toReal (htop _ hk) (hbot _ hk)
  rw [Field.steepness, steepness_eq_iff hx hy, hsteps, EReal.toReal_coe, EReal.toReal_coe,
    hf.coe_slownessAt, hslow, hcoe, least_beside hi, least_aboveBelow hi]

/-- Row by row, the equations of a table are those of the nodes of a field. -/
theorem solves_iff : Solves f.rows f.columns dx dy seeds f.slowness T ↔
    T.size = f.size ∧ f.IsSolution seeds (T.getD · ⊤) := by
  constructor
  · intro h
    have htop : ∀ k < f.size, T.getD k ⊤ ≠ ⊤ := Field.forall_node.mpr h.ne_top
    have hbot : ∀ k < f.size, T.getD k ⊤ ≠ ⊥ := Field.forall_node.mpr h.ne_bot
    refine ⟨h.size, htop, hbot, Field.forall_node.mpr h.seed,
      Field.forall_node.mpr fun j hj i hi hseed => ?_⟩
    exact (solves_node_iff hf hsteps hs hj hi htop hbot).mpr (h.upwind j hj i hi hseed)
  · rintro ⟨hsize, h⟩
    refine ⟨hsize, Field.forall_node.mp h.ne_top, Field.forall_node.mp h.ne_bot,
      Field.forall_node.mp h.seed, fun j hj i hi hseed => ?_⟩
    exact (solves_node_iff hf hsteps hs hj hi h.ne_top h.ne_bot).mp
      (h.solves _ (f.node_lt hj hi) hseed)

theorem solves_of_done {p : Stage EReal} (hsize : seeds.size = f.size) (hseed : true ∈ seeds)
    (hlead : Stage.Leads f Least (Stage.start seeds) p) (hdone : p.Done) :
    Solves f.rows f.columns dx dy seeds f.slowness p.march.value := by
  obtain ⟨hr, -, -⟩ := Stage.causal_leads hf hsize hlead
  exact (solves_iff hf hsteps hs).mpr
    ⟨hr.value_size.trans hsize, Stage.isSolution_of_done hf hsize hlead hdone hseed⟩

theorem Solves.unique {T' : Array EReal} (hpos : ∀ x ∈ f.slowness, 0 < x)
    (h : Solves f.rows f.columns dx dy seeds f.slowness T)
    (h' : Solves f.rows f.columns dx dy seeds f.slowness T') : T' = T := by
  have hslow : ∀ k < f.size, 0 < f.slownessAt k := by
    intro k hk
    have hk' : k < f.slowness.size := by rwa [hs]
    rw [← EReal.coe_pos, hf.coe_slownessAt]
    simpa [hk'] using hpos _ (Array.getElem_mem hk')
  obtain ⟨hsizeT, hT⟩ := (solves_iff hf hsteps hs).mp h
  obtain ⟨hsizeT', hT'⟩ := (solves_iff hf hsteps hs).mp h'
  refine Array.ext (hsizeT'.trans hsizeT.symm) fun k hk' hk => ?_
  have := hT'.unique hT hf hslow k (hsizeT ▸ hk)
  simpa [hk, hk'] using this

end Equation

/-- Travel times are the one solution of the upwind scheme, whichever entry of the least value is
taken first. -/
theorem travelTime_eq_unique_solution {rows columns : Nat} {dx dy : ℝ} {seeds : NdArray Bool}
    {slowness : NdArray EReal} {s : Array EReal} (hshape : seeds.shape = [rows, columns])
    (hsize : seeds.items.size = rows * columns) (hseed : true ∈ seeds.items) (hdx : 0 < dx)
    (hdy : 0 < dy) (hs : slowness.spreadTable rows columns = .ok s)
    (hitems : slowness.items.size = slowness.shape.prod)
    (hpos : ∀ x ∈ slowness.items, 0 < x ∧ x < ⊤) :
    ∃ T, travelTime seeds ⟨(dx : EReal), (dy : EReal)⟩ slowness =
        .ok { shape := [rows, columns], items := T } ∧
      Solves rows columns dx dy seeds.items s T ∧
      (∀ T', Solves rows columns dx dy seeds.items s T' → T' = T) ∧
      ∀ p, Stage.Leads ⟨rows, columns, ⟨(dx : EReal), (dy : EReal)⟩, s⟩ Least
        (Stage.start seeds.items) p → p.Done → p.march.value = T := by
  obtain ⟨hssize, hsmem⟩ := NdArray.spreadTable_spec hs hitems
  let f : Field EReal := ⟨rows, columns, ⟨(dx : EReal), (dy : EReal)⟩, s⟩
  have hf : f.Regular :=
    { dx_pos := EReal.coe_pos.mpr hdx
      dx_lt_top := EReal.coe_lt_top dx
      dy_pos := EReal.coe_pos.mpr hdy
      dy_lt_top := EReal.coe_lt_top dy
      slowness_nonneg := fun x hx => (hpos x (hsmem x hx)).1.le
      slowness_lt_top := fun x hx => (hpos x (hsmem x hx)).2 }
  have hsolves : ∀ p, Stage.Leads f Least (Stage.start seeds.items) p → p.Done →
      Solves rows columns dx dy seeds.items s p.march.value := fun _ =>
    solves_of_done (f := f) hf rfl hssize hsize hseed
  have hunique : ∀ {T T'}, Solves rows columns dx dy seeds.items s T →
      Solves rows columns dx dy seeds.items s T' → T' = T :=
    Solves.unique (f := f) hf rfl hssize fun x hx => (hpos x (hsmem x hx)).1
  obtain ⟨m, p, hm, hlead, rfl, hdone⟩ := Stage.exists_advance hf hsize
  have hp := hsolves p (hlead.mono least_of_first) hdone
  refine ⟨p.march.value, ?_, hp, fun T' => hunique hp, fun q hq hd => hunique hp (hsolves q hq hd)⟩
  unfold travelTime
  rw [hshape]
  simp only [hs]
  rw [arrivals, hm]
  rfl

theorem travelTime_eq_unique_solution_sample :
    ∃ T, travelTime { shape := [2, 2], items := #[true, false, false, false] }
        ⟨((1 : ℝ) : EReal), ((1 : ℝ) : EReal)⟩ (NdArray.scalar 1) =
          .ok { shape := [2, 2], items := T } ∧
      Solves 2 2 1 1 #[true, false, false, false] #[1, 1, 1, 1] T ∧
      ∀ T', Solves 2 2 1 1 #[true, false, false, false] #[1, 1, 1, 1] T' → T' = T := by
  obtain ⟨T, htime, hsolves, hunique, -⟩ := travelTime_eq_unique_solution
    (show ({ shape := [2, 2], items := #[true, false, false, false] } : NdArray Bool).shape = [2, 2]
      from rfl)
    rfl (by simp) zero_lt_one zero_lt_one
    (show (NdArray.scalar (1 : EReal)).spreadTable 2 2 = .ok #[1, 1, 1, 1] from rfl) rfl
    fun x hx => by
      obtain rfl : x = 1 := by simpa [NdArray.scalar] using hx
      exact ⟨zero_lt_one, EReal.coe_lt_top 1⟩
  exact ⟨T, htime, hsolves, hunique⟩

end FastMarching

end Eikonal
