import Eikonal.Proofs.Stencil
import Eikonal.Solver.Tentative
import Mathlib.Data.List.Rotate
import Mathlib.Tactic.ByContra

/-! Tentative values. The value of a cell depends on the front and the values of its neighbours on
the front only. When the front gains cells next to it, the value stays defined, and it falls only to
a candidate from a gained cell: all others were candidates before. -/

namespace Eikonal

theorem mem_of_mem_cyclicPairs {κ : Type} {l : List κ} {p : κ × κ} (h : p ∈ cyclicPairs l) :
    p.1 ∈ l ∧ p.2 ∈ l := by
  unfold cyclicPairs at h
  split at h
  · rename_i a b rest
    obtain ⟨h1, h2⟩ := List.of_mem_zip h
    refine ⟨h1, ?_⟩
    rw [List.mem_append, List.mem_singleton] at h2
    rcases h2 with h2 | h2
    · exact List.mem_cons_of_mem _ h2
    · rw [h2]
      exact List.mem_cons_self
  · cases h

/-- No item follows itself. -/
theorem ne_of_mem_cyclicPairs {κ : Type} {l : List κ} (hn : l.Nodup) {p : κ × κ}
    (h : p ∈ cyclicPairs l) : p.1 ≠ p.2 := by
  unfold cyclicPairs at h
  split at h
  · rename_i a b rest
    rw [show b :: rest ++ [a] = (a :: b :: rest).rotate 1 by simp] at h
    obtain ⟨i, hi, rfl⟩ := List.mem_iff_getElem.mp h
    rw [List.length_zip, List.length_rotate, Nat.min_self] at hi
    simp only [List.getElem_zip, List.getElem_rotate, ne_eq, hn.getElem_inj_iff]
    intro heq
    rcases Nat.lt_or_ge (i + 1) (a :: b :: rest).length with hlt | hge
    · rw [Nat.mod_eq_of_lt hlt] at heq
      omega
    · rw [show i + 1 = (a :: b :: rest).length by omega, Nat.mod_self] at heq
      simp at hge
      omega
  · cases h

theorem cyclicPairs_eq_zip {κ : Type} {l : List κ} (h : 2 ≤ l.length) :
    cyclicPairs l = l.zip (l.rotate 1) := by
  match l with
  | [] | [_] => simp at h
  | a :: b :: rest => simp [cyclicPairs]

/-- A list begun at another place has the same cyclic pairs, begun at that place. -/
theorem cyclicPairs_rotate {κ : Type} (l : List κ) (n : Nat) :
    cyclicPairs (l.rotate n) = (cyclicPairs l).rotate n := by
  match l with
  | [] | [_] => simp [cyclicPairs]
  | a :: b :: rest =>
    rw [cyclicPairs_eq_zip (by simp), cyclicPairs_eq_zip (by simp), List.rotate_rotate,
      Nat.add_comm n 1, ← List.rotate_rotate]
    exact (List.zipWith_rotate_distrib Prod.mk _ _ n (by simp)).symm

theorem mem_cyclicPairs_of_isRotated {κ : Type} {l l' : List κ} (h : l' ~r l) (p : κ × κ) :
    p ∈ cyclicPairs l' ↔ p ∈ cyclicPairs l := by
  obtain ⟨n, rfl⟩ := h
  rw [cyclicPairs_rotate, List.mem_rotate]

namespace Medium

variable {α : Type} [Scalar α]

/-- The least triangle update of a cell from the front. -/
def byTriangle (m : Medium α) (front : Front) (u : Array α) (c : Nat) : α :=
  Scalar.leastOf ((m.upwindPairs front c).map fun p => m.fromTriangle u c p.1 p.2)

/-- The least line update of a cell from the front. -/
def byLine (m : Medium α) (front : Front) (u : Array α) (c : Nat) : α :=
  Scalar.leastOf ((m.upwind front c).map (m.fromLine u c))

theorem tentative?_eq (m : Medium α) (front : Front) (u : Array α) (c : Nat) :
    m.tentative? front u c =
      let best := if Scalar.eq (m.byTriangle front u c) Scalar.inf then m.byLine front u c
        else m.byTriangle front u c
      if Scalar.eq best Scalar.inf then none else some best := rfl

variable {m : Medium α} {f f' : Front} {u u' : Array α} {c j : Nat} {v v' : α} {p : Nat × Nat}

omit [Scalar α] in
theorem mem_upwind : j ∈ m.upwind f c ↔ j ∈ m.around c ∧ f.contains j := by
  simp [upwind]

omit [Scalar α] in
theorem mem_upwindPairs : p ∈ m.upwindPairs f c ↔
    p ∈ cyclicPairs (m.around c) ∧ f.contains p.1 ∧ f.contains p.2 := by
  simp [upwindPairs]

/-- The value of a cell depends on the front and the values of its neighbours there only. -/
theorem tentative?_congr (hf : ∀ d ∈ m.around c, f'.contains d = f.contains d)
    (hu : ∀ d ∈ m.around c, f.contains d → u'.getD d Scalar.inf = u.getD d Scalar.inf) :
    m.tentative? f' u' c = m.tentative? f u c := by
  have hup : m.upwind f' c = m.upwind f c := List.filter_congr hf
  have hpairs : m.upwindPairs f' c = m.upwindPairs f c := by
    refine List.filter_congr fun p hp => ?_
    obtain ⟨h1, h2⟩ := mem_of_mem_cyclicPairs hp
    rw [hf _ h1, hf _ h2]
  have hline : m.byLine f' u' c = m.byLine f u c := by
    unfold byLine
    rw [hup]
    refine congrArg _ (List.map_congr_left fun d hd => ?_)
    obtain ⟨hd, hdf⟩ := mem_upwind.mp hd
    rw [fromLine, fromLine, hu d hd hdf]
  have htriangle : m.byTriangle f' u' c = m.byTriangle f u c := by
    unfold byTriangle
    rw [hpairs]
    refine congrArg _ (List.map_congr_left fun p hp => ?_)
    obtain ⟨hp, hp1, hp2⟩ := mem_upwindPairs.mp hp
    obtain ⟨h1, h2⟩ := mem_of_mem_cyclicPairs hp
    rw [fromTriangle, fromTriangle, hu _ h1 hp1, hu _ h2 hp2]
  rw [tentative?_eq, tentative?_eq, hline, htriangle]

/-- Of the metric field, the value of a cell depends on its own tensor only. -/
theorem tentative?_of_tensor {mesh : Mesh α} {field field' : MetricField α}
    (h : field'.getD c default = field.getD c default) :
    tentative? ⟨mesh, field'⟩ f u c = tentative? ⟨mesh, field⟩ f u c := by
  have htensor : tensor ⟨mesh, field'⟩ c = tensor ⟨mesh, field⟩ c := h
  have hline : fromLine ⟨mesh, field'⟩ u c = fromLine ⟨mesh, field⟩ u c := by
    funext j
    rw [fromLine, fromLine, htensor]
    rfl
  have htriangle : fromTriangle ⟨mesh, field'⟩ u c = fromTriangle ⟨mesh, field⟩ u c := by
    funext j k
    rw [fromTriangle, fromTriangle, htensor]
    rfl
  unfold tentative?
  rw [hline, htriangle]
  rfl

section Order

variable [OrderedScalar α]

theorem isNaN_byTriangle : Scalar.isNaN (m.byTriangle f u c) = false := Scalar.isNaN_leastOf _

theorem isNaN_byLine : Scalar.isNaN (m.byLine f u c) = false := Scalar.isNaN_leastOf _

theorem some_below_inf_iff {best : α} (hb : Scalar.isNaN best = false) :
    (if Scalar.eq best Scalar.inf then none else some best) = some v ↔
      Scalar.lt v Scalar.inf ∧ v = best := by
  by_cases hlt : Scalar.lt best Scalar.inf
  · rw [if_neg (by simp [Scalar.eq_false_of_lt hlt]), Option.some_inj]
    exact ⟨by rintro rfl; exact ⟨hlt, rfl⟩, fun h => h.2.symm⟩
  · rw [if_pos ((Scalar.eq_inf_iff hb).mpr (by simpa using hlt))]
    exact ⟨by rintro ⟨⟩, by rintro ⟨hv, rfl⟩; exact absurd hv hlt⟩

theorem tentative?_of_triangle (ht : Scalar.lt (m.byTriangle f u c) Scalar.inf) :
    m.tentative? f u c = some (m.byTriangle f u c) := by
  rw [tentative?_eq]
  simp [Scalar.eq_false_of_lt ht]

theorem tentative?_of_line (ht : Scalar.lt (m.byTriangle f u c) Scalar.inf = false) :
    m.tentative? f u c =
      if Scalar.eq (m.byLine f u c) Scalar.inf then none else some (m.byLine f u c) := by
  rw [tentative?_eq]
  simp [(Scalar.eq_inf_iff isNaN_byTriangle).mpr ht]

/-- A value is below infinity; it is the least triangle update, or the least line update if no
triangle gives one. -/
theorem tentative?_eq_some_iff : m.tentative? f u c = some v ↔
    Scalar.lt v Scalar.inf ∧
      (v = m.byTriangle f u c ∨
        Scalar.lt (m.byTriangle f u c) Scalar.inf = false ∧ v = m.byLine f u c) := by
  by_cases ht : Scalar.lt (m.byTriangle f u c) Scalar.inf
  · rw [tentative?_of_triangle ht, Option.some_inj]
    constructor
    · rintro rfl
      exact ⟨ht, Or.inl rfl⟩
    · rintro ⟨-, rfl | ⟨h, -⟩⟩
      · rfl
      · rw [ht] at h
        cases h
  · rw [Bool.not_eq_true] at ht
    rw [tentative?_of_line ht, some_below_inf_iff isNaN_byLine]
    constructor
    · rintro ⟨hv, rfl⟩
      exact ⟨hv, Or.inr ⟨ht, rfl⟩⟩
    · rintro ⟨hv, rfl | ⟨-, rfl⟩⟩
      · rw [ht] at hv
        cases hv
      · exact ⟨hv, rfl⟩

theorem lt_inf_of_tentative? (h : m.tentative? f u c = some v) : Scalar.lt v Scalar.inf :=
  (tentative?_eq_some_iff.mp h).1

theorem isNaN_of_tentative? (h : m.tentative? f u c = some v) : Scalar.isNaN v = false :=
  Scalar.isNaN_of_lt_inf (lt_inf_of_tentative? h)

/-- A line update below infinity from a front cell gives a value. -/
theorem exists_tentative?_of_line (hj : j ∈ m.upwind f c)
    (hl : Scalar.lt (m.fromLine u c j) Scalar.inf) : ∃ v, m.tentative? f u c = some v := by
  by_cases ht : Scalar.lt (m.byTriangle f u c) Scalar.inf
  · exact ⟨_, tentative?_eq_some_iff.mpr ⟨ht, Or.inl rfl⟩⟩
  · have hle : Scalar.le (m.byLine f u c) (m.fromLine u c j) :=
      Scalar.leastOf_le (List.mem_map_of_mem hj) (Scalar.isNaN_of_lt_inf hl)
    exact ⟨_, tentative?_eq_some_iff.mpr
      ⟨Scalar.lt_of_le_of_lt hle hl, Or.inr ⟨by simpa using ht, rfl⟩⟩⟩

/-- A value comes from a triangle or a line update. -/
theorem exists_candidate (h : m.tentative? f u c = some v) :
    (∃ p ∈ m.upwindPairs f c, m.fromTriangle u c p.1 p.2 = v) ∨
      ∃ j ∈ m.upwind f c, m.fromLine u c j = v := by
  obtain ⟨hv, rfl | ⟨-, rfl⟩⟩ := tentative?_eq_some_iff.mp h
  · obtain ⟨p, hp, hpv⟩ := List.mem_map.mp (Scalar.leastOf_mem_of_lt hv)
    exact Or.inl ⟨p, hp, hpv⟩
  · obtain ⟨j, hj, hjv⟩ := List.mem_map.mp (Scalar.leastOf_mem_of_lt hv)
    exact Or.inr ⟨j, hj, hjv⟩

section Grow

variable (hf : ∀ d ∈ m.around c, f.contains d → f'.contains d)
  (hu : ∀ d ∈ m.around c, f.contains d → u'.getD d Scalar.inf = u.getD d Scalar.inf)
include hf hu

/-- A candidate from the old front is one from the larger front. -/
theorem byTriangle_anti : Scalar.le (m.byTriangle f' u' c) (m.byTriangle f u c) := by
  refine Scalar.leastOf_anti fun w hw => ?_
  obtain ⟨p, hp, rfl⟩ := List.mem_map.mp hw
  obtain ⟨hp, hp1, hp2⟩ := mem_upwindPairs.mp hp
  obtain ⟨h1, h2⟩ := mem_of_mem_cyclicPairs hp
  refine List.mem_map.mpr ⟨p, mem_upwindPairs.mpr ⟨hp, hf _ h1 hp1, hf _ h2 hp2⟩, ?_⟩
  rw [fromTriangle, fromTriangle, hu _ h1 hp1, hu _ h2 hp2]

theorem byLine_anti : Scalar.le (m.byLine f' u' c) (m.byLine f u c) := by
  refine Scalar.leastOf_anti fun w hw => ?_
  obtain ⟨j, hj, rfl⟩ := List.mem_map.mp hw
  obtain ⟨hj, hjf⟩ := mem_upwind.mp hj
  refine List.mem_map.mpr ⟨j, mem_upwind.mpr ⟨hj, hf j hj hjf⟩, ?_⟩
  rw [fromLine, fromLine, hu j hj hjf]

/-- A cell keeps having a value when the front grows. -/
theorem exists_tentative?_of_grow (h : m.tentative? f u c = some v) :
    ∃ v', m.tentative? f' u' c = some v' := by
  by_cases ht : Scalar.lt (m.byTriangle f' u' c) Scalar.inf
  · exact ⟨_, tentative?_eq_some_iff.mpr ⟨ht, Or.inl rfl⟩⟩
  · obtain ⟨hv, rfl | ⟨-, rfl⟩⟩ := tentative?_eq_some_iff.mp h
    · exact absurd (Scalar.lt_of_le_of_lt (byTriangle_anti hf hu) hv) ht
    · exact ⟨_, tentative?_eq_some_iff.mpr
        ⟨Scalar.lt_of_le_of_lt (byLine_anti hf hu) hv, Or.inr ⟨by simpa using ht, rfl⟩⟩⟩

/-- A value that falls when the front grows comes from a cell that the front has gained. -/
theorem exists_gained (h : m.tentative? f u c = some v) (h' : m.tentative? f' u' c = some v')
    (hlt : Scalar.lt v' v) :
    (∃ p ∈ m.upwindPairs f' c, m.fromTriangle u' c p.1 p.2 = v' ∧
      (f.contains p.1 = false ∨ f.contains p.2 = false)) ∨
      ∃ j ∈ m.upwind f' c, m.fromLine u' c j = v' ∧ f.contains j = false := by
  obtain ⟨hv, hcase⟩ := tentative?_eq_some_iff.mp h
  obtain ⟨hv', rfl | ⟨ht', rfl⟩⟩ := tentative?_eq_some_iff.mp h'
  · obtain ⟨p, hp, hpv⟩ := List.mem_map.mp (Scalar.leastOf_mem_of_lt hv')
    refine Or.inl ⟨p, hp, hpv, ?_⟩
    by_contra hold
    rw [not_or, Bool.not_eq_false, Bool.not_eq_false] at hold
    -- the triangle stood on the old front, so the old value was at most this one
    obtain ⟨hp, -⟩ := mem_upwindPairs.mp hp
    obtain ⟨h1, h2⟩ := mem_of_mem_cyclicPairs hp
    have hsame : m.fromTriangle u c p.1 p.2 = m.byTriangle f' u' c := by
      rw [byTriangle, ← hpv, fromTriangle, fromTriangle, hu _ h1 hold.1, hu _ h2 hold.2]
    have hle : Scalar.le (m.byTriangle f u c) (m.byTriangle f' u' c) := by
      rw [← hsame]
      refine Scalar.leastOf_le (List.mem_map_of_mem (mem_upwindPairs.mpr ⟨hp, hold⟩)) ?_
      rw [hsame]
      exact isNaN_byTriangle
    rcases hcase with rfl | ⟨hinf, -⟩
    · rw [Scalar.not_lt_of_le hle] at hlt
      cases hlt
    · rw [Scalar.lt_of_le_of_lt hle hv'] at hinf
      cases hinf
  · obtain ⟨j, hj, hjv⟩ := List.mem_map.mp (Scalar.leastOf_mem_of_lt hv')
    refine Or.inr ⟨j, hj, hjv, ?_⟩
    by_contra hold
    rw [Bool.not_eq_false] at hold
    obtain ⟨hj, -⟩ := mem_upwind.mp hj
    have hsame : m.fromLine u c j = m.byLine f' u' c := by
      rw [byLine, ← hjv, fromLine, fromLine, hu _ hj hold]
    have hle : Scalar.le (m.byLine f u c) (m.byLine f' u' c) := by
      rw [← hsame]
      refine Scalar.leastOf_le (List.mem_map_of_mem (mem_upwind.mpr ⟨hj, hold⟩)) ?_
      rw [hsame]
      exact isNaN_byLine
    rcases hcase with rfl | ⟨-, rfl⟩
    · -- no triangle of the larger front gives a value, so none of the old one did
      rw [Scalar.lt_of_le_of_lt (byTriangle_anti hf hu) hv] at ht'
      cases ht'
    · rw [Scalar.not_lt_of_le hle] at hlt
      cases hlt

end Grow

theorem le_fromTriangle (h1 : Scalar.isNaN (u.getD p.1 Scalar.inf) = false)
    (h2 : Scalar.isNaN (u.getD p.2 Scalar.inf) = false)
    (hv : Scalar.lt (m.fromTriangle u c p.1 p.2) Scalar.inf) :
    Scalar.le (u.getD p.1 Scalar.inf) (m.fromTriangle u c p.1 p.2) ∧
      Scalar.le (u.getD p.2 Scalar.inf) (m.fromTriangle u c p.1 p.2) := by
  have hn := Scalar.isNaN_of_lt_inf hv
  unfold fromTriangle at hv hn ⊢
  split
  · rename_i hw
    rw [if_pos hw] at hn
    exact Stencil.le_triangle h1 h2 hn
  · rename_i hw
    rw [if_neg hw, Scalar.lt_irrefl] at hv
    cases hv

end Order

section Causal

variable [LawfulScalar α] {w : α}

theorem le_fromLine (hu : Scalar.le Scalar.zero (u.getD j Scalar.inf))
    (hv : Scalar.isNaN (m.fromLine u c j) = false) :
    Scalar.le (u.getD j Scalar.inf) (m.fromLine u c j) :=
  Stencil.le_line hu hv

/-- A value is not below the values of the front cells next to its cell. -/
theorem le_tentative? (hu : ∀ d ∈ m.upwind f c, Scalar.le Scalar.zero (u.getD d Scalar.inf))
    (hw : ∀ d ∈ m.upwind f c, Scalar.le w (u.getD d Scalar.inf))
    (h : m.tentative? f u c = some v) : Scalar.le w v := by
  have hv := lt_inf_of_tentative? h
  rcases exists_candidate h with ⟨p, hp, rfl⟩ | ⟨j, hj, rfl⟩
  · obtain ⟨hp, hp1, hp2⟩ := mem_upwindPairs.mp hp
    obtain ⟨h1, h2⟩ := mem_of_mem_cyclicPairs hp
    have hm1 := mem_upwind.mpr ⟨h1, hp1⟩
    have hm2 := mem_upwind.mpr ⟨h2, hp2⟩
    exact OrderedScalar.le_trans (hw p.1 hm1)
      (le_fromTriangle (OrderedScalar.not_nan_right (hu p.1 hm1))
        (OrderedScalar.not_nan_right (hu p.2 hm2)) hv).1
  · exact OrderedScalar.le_trans (hw j hj) (le_fromLine (hu j hj) (Scalar.isNaN_of_lt_inf hv))

/-- A value that falls when the front grows is not below the values of the cells gained. -/
theorem le_tentative?_of_gained
    (hf : ∀ d ∈ m.around c, f.contains d → f'.contains d)
    (hu : ∀ d ∈ m.around c, f.contains d → u'.getD d Scalar.inf = u.getD d Scalar.inf)
    (hn : ∀ d ∈ m.upwind f' c, Scalar.le Scalar.zero (u'.getD d Scalar.inf))
    (hw : ∀ d ∈ m.upwind f' c, f.contains d = false → Scalar.le w (u'.getD d Scalar.inf))
    (h : m.tentative? f u c = some v) (h' : m.tentative? f' u' c = some v')
    (hlt : Scalar.lt v' v) : Scalar.le w v' := by
  have hv := lt_inf_of_tentative? h'
  rcases exists_gained hf hu h h' hlt with ⟨p, hp, rfl, hnew⟩ | ⟨j, hj, rfl, hnew⟩
  · obtain ⟨hp, hp1, hp2⟩ := mem_upwindPairs.mp hp
    obtain ⟨h1, h2⟩ := mem_of_mem_cyclicPairs hp
    have hm1 := mem_upwind.mpr ⟨h1, hp1⟩
    have hm2 := mem_upwind.mpr ⟨h2, hp2⟩
    obtain ⟨hle1, hle2⟩ := le_fromTriangle (OrderedScalar.not_nan_right (hn p.1 hm1))
      (OrderedScalar.not_nan_right (hn p.2 hm2)) hv
    rcases hnew with hnew | hnew
    · exact OrderedScalar.le_trans (hw p.1 hm1 hnew) hle1
    · exact OrderedScalar.le_trans (hw p.2 hm2 hnew) hle2
  · exact OrderedScalar.le_trans (hw j hj hnew) (le_fromLine (hn j hj) (Scalar.isNaN_of_lt_inf hv))

end Causal

end Medium

end Eikonal
