import Eikonal.Proofs.Grid.Angle
import Eikonal.Proofs.Solver.Agreement
import Eikonal.Proofs.Solver.Certificate
import Eikonal.Proofs.Solver.Distance

/-! Straight steps from accepted neighbours. A cell looks at line updates only while no triangle
gives it a value, so its value does not exceed the line update from a neighbour that was accepted
before any two accepted neighbours bounded a wedge. Later on a neighbour counts through a wedge, and
there the line update is raised to the time of the other end at most. Nothing bounds the value by
the line update from a neighbour that comes late and bounds no wedge. -/

namespace Eikonal

variable {α : Type} [Scalar α]

namespace Medium

/-- No wedge of cells in `P` gives the cell `c` a triangle update below infinity. -/
def NoTriangle (m : Medium α) (u : Array α) (P : List Nat) (c : Nat) : Prop :=
  ∀ p ∈ m.wedges c, p.1 ∈ P ∧ p.2 ∈ P → Scalar.lt (m.across u c p) Scalar.inf = false

variable {m : Medium α} {f : Front} {u u' : Array α} {c j : Nat} {v : α} {P : List Nat}

theorem NoTriangle.congr (h : m.NoTriangle u P c)
    (hu : ∀ j ∈ P, u'.getD j Scalar.inf = u.getD j Scalar.inf) : m.NoTriangle u' P c := by
  intro p hp hpP
  rw [across_congr (hu _ hpP.1) (hu _ hpP.2)]
  exact h p hp hpP

variable [OrderedScalar α]

theorem NoTriangle.byTriangle (h : m.NoTriangle u P c)
    (hf : ∀ d ∈ m.around c, f.contains d → d ∈ P) :
    Scalar.lt (m.byTriangle f u c) Scalar.inf = false := by
  rw [Bool.eq_false_iff]
  intro hlt
  obtain ⟨p, hp, hpv⟩ := List.mem_map.mp (Scalar.leastOf_mem_of_lt hlt)
  obtain ⟨hp, hp1, hp2⟩ := mem_upwindPairs.mp hp
  obtain ⟨h1, h2⟩ := mem_of_mem_cyclicPairs hp
  have hplt : Scalar.lt (m.fromTriangle u c p.1 p.2) Scalar.inf := hpv ▸ hlt
  obtain ⟨hw, hacross⟩ := mem_wedges_of_fromTriangle hp hplt
  have hno := h p hw ⟨hf _ h1 hp1, hf _ h2 hp2⟩
  rw [← hacross, hplt] at hno
  cases hno

/-- Where the front gives no triangle update, the value is the least line update. -/
theorem NoTriangle.le_fromLine (h : m.NoTriangle u P c)
    (hf : ∀ d ∈ m.around c, f.contains d → d ∈ P) (hv : m.tentative? f u c = some v)
    (hj : j ∈ m.upwind f c) (hn : Scalar.isNaN (m.fromLine u c j) = false) :
    Scalar.le v (m.fromLine u c j) := by
  obtain ⟨hlt, rfl | ⟨-, rfl⟩⟩ := tentative?_eq_some_iff.mp hv
  · rw [h.byTriangle hf] at hlt
    cases hlt
  · exact Scalar.leastOf_le (List.mem_map_of_mem hj) hn

/-- The chord of a triangle update of cell `c`. -/
def chord (m : Medium α) (u : Array α) (c : Nat) (p : Nat × Nat) : Stencil.Chord α :=
  Stencil.Chord.of (m.point c) (m.point p.1) (u.getD p.1 Scalar.inf) (m.point p.2)
    (u.getD p.2 Scalar.inf) (m.tensor c)

/-- The arrivals over the ends of a chord are the line updates from there, as they are wherever
nothing is rounded. -/
structure EndsAtLines (m : Medium α) (u : Array α) (c : Nat) (p : Nat × Nat) : Prop where
  first : (m.chord u c p).cost Scalar.one = m.fromLine u c p.1
  second : (m.chord u c p).cost Scalar.zero = m.fromLine u c p.2

omit [OrderedScalar α] in
/-- A triangle update exceeds the line update from one of its ends only to reach the time of the
other end. -/
theorem EndsAtLines.across_le [LawfulScalar α] {p : Nat × Nat} (he : m.EndsAtLines u c p)
    (h1 : Scalar.isNaN (m.fromLine u c p.1) = false)
    (h2 : Scalar.isNaN (m.fromLine u c p.2) = false)
    (hu1 : Scalar.le Scalar.zero (u.getD p.1 Scalar.inf))
    (hu2 : Scalar.le Scalar.zero (u.getD p.2 Scalar.inf)) :
    Scalar.le (m.across u c p) (Scalar.upper (m.fromLine u c p.1) (u.getD p.2 Scalar.inf)) ∧
      Scalar.le (m.across u c p) (Scalar.upper (m.fromLine u c p.2) (u.getD p.1 Scalar.inf)) := by
  have hn1 := OrderedScalar.not_nan_right hu1
  have hn2 := OrderedScalar.not_nan_right hu2
  have hl1 := m.le_fromLine hu1 h1
  have hl2 := m.le_fromLine hu2 h2
  obtain ⟨hleast2, hleast1⟩ := Stencil.Chord.least_le_ends (t := m.chord u c p)
    (by rwa [he.second]) (by rwa [he.first])
  rw [he.first] at hleast1
  rw [he.second] at hleast2
  obtain ⟨h11, h12⟩ := Scalar.le_upper (Scalar.isNaN_upper h1 hn2) hn2
  obtain ⟨h22, h21⟩ := Scalar.le_upper (Scalar.isNaN_upper h2 hn1) hn1
  constructor
  · exact Scalar.upper_le (Scalar.upper_le (OrderedScalar.le_trans hleast1 h11)
      (OrderedScalar.le_trans hl1 h11)) h12
  · exact Scalar.upper_le (Scalar.upper_le (OrderedScalar.le_trans hleast2 h22) h21)
      (OrderedScalar.le_trans hl2 h22)

end Medium

namespace Run

/-- The cells that were accepted by the time the cell `j` was. The start cells are accepted
together. -/
def acceptedWith (r : Run α) (starts : List Nat) (j : Nat) : List Nat :=
  starts ++ (r.acceptedBefore j ++ [j])

/-- How the line updates from cells accepted before the cell `c` bound its value in `u`: the update
from a cell that came while no triangle gave a value bounds it alone, and the ends of a wedge bound
it in pairs. -/
structure LineBounded (m : Medium α) (starts : List Nat) (u : Array α) (c : Nat) (r : Run α) :
    Prop where
  alone : ∀ j ∈ m.around c, j ∈ r.acceptedBefore c → m.NoTriangle u (r.acceptedWith starts j) c →
    Scalar.isNaN (m.fromLine u c j) = false →
    Scalar.le (u.getD c Scalar.inf) (m.fromLine u c j)
  paired : ∀ p ∈ m.wedges c, p.1 ∈ r.acceptedBefore c → p.2 ∈ r.acceptedBefore c →
    m.EndsAtLines u c p → Scalar.isNaN (m.fromLine u c p.1) = false →
    Scalar.isNaN (m.fromLine u c p.2) = false →
    Scalar.le (u.getD c Scalar.inf) (Scalar.upper (m.fromLine u c p.1) (u.getD p.2 Scalar.inf)) ∧
      Scalar.le (u.getD c Scalar.inf) (Scalar.upper (m.fromLine u c p.2) (u.getD p.1 Scalar.inf))

/-- A sound run in which no value exceeds the line update from a neighbour that was accepted
before any wedge gave the cell a value. -/
structure Straight (m : Medium α) (starts : List Nat) (r : Run α) : Prop extends Sound m r where
  started : ∀ c ∈ starts, r.isAccepted c
  le_line : ∀ c j, c ∉ starts → r.stateOf c = .considered ∨ r.isAccepted c → j ∈ m.around c →
    j ∈ r.acceptedBefore c → m.NoTriangle r.solution (r.acceptedWith starts j) c →
    Scalar.isNaN (m.fromLine r.solution c j) = false →
    Scalar.le (r.valueOf c) (m.fromLine r.solution c j)

variable {m : Medium α} {starts P : List Nat} {n : Nat} {r r' : Run α} {c j : Nat}

theorem Coherent.isAccepted_of_with (h : r.Coherent n) (hs : ∀ c ∈ starts, r.isAccepted c)
    (hj : r.isAccepted j) (hc : c ∈ r.acceptedWith starts j) : r.isAccepted c := by
  rw [acceptedWith, List.mem_append, List.mem_append, List.mem_singleton] at hc
  rcases hc with hc | hc | rfl
  · exact hs c hc
  · exact h.isAccepted_of_before hc
  · exact hj

variable [OrderedScalar α]

/-- If no two accepted neighbours of a considered cell give it a triangle update, its value is at
most each line update from them. -/
theorem Sound.le_fromLine (hr : r.Sound m) (hu : m.mesh.Undirected)
    (hc : r.stateOf c = .considered) (hj : j ∈ m.around c) (hja : r.isAccepted j)
    (hP : ∀ d, r.isAccepted d → d ∈ P) (hno : m.NoTriangle r.solution P c)
    (hn : Scalar.isNaN (m.fromLine r.solution c j) = false) :
    Scalar.le (r.valueOf c) (m.fromLine r.solution c j) := by
  obtain ⟨v, hv⟩ := hr.reached c hc
  have hne : r.isAccepted c = false := hr.coherent.not_accepted (by rw [hc]; decide)
  have hfront : r.front.contains j := by rwa [hr.front.contains_of_around hu hne hj]
  refine OrderedScalar.le_trans (hr.steady c v hc hv) (hno.le_fromLine (f := r.front) ?_ hv ?_ hn)
  · exact fun d _ hd => hP d (hr.coherent.front_accepted d hd)
  · exact Medium.mem_upwind.mpr ⟨hj, hfront⟩

theorem Straight.of_step (hr : r.Straight m starts) (hu : m.mesh.Undirected)
    (hs : r.step m = .ok r') : r'.Straight m starts := by
  have hco := hr.coherent
  obtain ⟨e, r1, r2, h, hw, -, hready, hall, hsound⟩ := hr.toSound.parts_of_step hu hs
  have hacc : ∀ d, r'.isAccepted d ↔ e.cell = d ∨ r.isAccepted d := by
    intro d
    rw [hall.isAccepted_eq, hw.isAccepted_eq, h.isAccepted_iff]
  have hvalue : ∀ d, r'.isAccepted d → r'.valueOf d = r.valueOf d := by
    intro d hd
    rw [hall.isAccepted_eq] at hd
    rw [hall.valueOf_accepted hd, hw.valueOf_accepted (by rwa [hw.isAccepted_eq] at hd),
      h.valueOf_eq]
  have horder : r'.order = r.order.push e.cell := by
    rw [hall.order, hw.order, h.settled.order]
  have hbefore : ∀ d, r'.isAccepted d → r'.acceptedBefore d = r.acceptedBefore d := by
    intro d hd
    exact acceptedBefore_push horder (((hacc d).mp hd).symm.imp_left (hco.mem_order d).mpr)
  have hunaccepted : r.isAccepted e.cell = false :=
    hco.not_accepted (by rw [h.considered]; decide)
  -- what the bound from a cell accepted in `r` depends on has not changed
  have hback : ∀ c j, r.isAccepted j →
      m.NoTriangle r'.solution (r'.acceptedWith starts j) c →
        m.NoTriangle r.solution (r.acceptedWith starts j) c ∧
          m.fromLine r'.solution c j = m.fromLine r.solution c j := by
    intro c j hj hno
    have hj' := (hacc j).mpr (Or.inr hj)
    rw [acceptedWith, hbefore j hj'] at hno
    refine ⟨hno.congr fun d hd => ?_, Medium.fromLine_congr (hvalue j hj')⟩
    exact (hvalue d ((hacc d).mpr (Or.inr (hco.isAccepted_of_with hr.started hj hd)))).symm
  refine ⟨hsound, fun c hc => (hacc c).mpr (Or.inr (hr.started c hc)), ?_⟩
  intro c j hcs hc hj hjc hno hn
  by_cases hca : r'.isAccepted c
  · -- accepted cells keep their values and what came before them
    rw [hbefore c hca] at hjc
    obtain ⟨hno, hline⟩ := hback c j (hco.isAccepted_of_before hjc) hno
    rw [hline] at hn ⊢
    rw [hvalue c hca]
    refine hr.le_line c j hcs ?_ hj hjc hno hn
    exact ((hacc c).mp hca).imp_left fun (hce : e.cell = c) => hce ▸ h.considered
  have hc : r'.stateOf c = .considered := hc.resolve_right hca
  have hja : r'.isAccepted j := hsound.coherent.isAccepted_of_before hjc
  rcases (hacc j).mp hja with rfl | hja0
  · refine hsound.le_fromLine hu hc hj hja (fun d hd => ?_) hno hn
    rw [acceptedWith, List.mem_append, List.mem_append, List.mem_singleton, hbefore _ hja,
      hco.mem_acceptedBefore hunaccepted]
    exact Or.inr (((hacc d).mp hd).symm.imp_right Eq.symm)
  · obtain ⟨hno, hline⟩ := hback c j hja0 hno
    rw [hline] at hn ⊢
    have hc2 : r2.stateOf c = .considered := hall.stateOf_eq c ▸ hc
    rcases hw.considered hc2 with ⟨hc1, hv⟩ | ⟨hfar, -, -⟩
    · obtain ⟨hce, hstate⟩ := h.stateOf_ne (d := c) (by rw [hc1]; decide)
      have hc0 : r.stateOf c = .considered := hstate ▸ hc1
      have hold := hr.le_line c j hcs (Or.inl hc0) hj
        ((hco.mem_acceptedBefore (hco.not_accepted (by rw [hc0]; decide))).mpr hja0) hno hn
      have hle : Scalar.le (r'.valueOf c) (r2.valueOf c) := by
        rw [(hall.inside c hc2).2]
        exact Scalar.lower_le_left (hready.coherent.isNaN_valueOf hc2)
      rw [hv, h.valueOf_eq] at hle
      exact OrderedScalar.le_trans hle hold
    · -- a cell that was far has no other accepted neighbour than the one just accepted
      have hje := h.eq_of_far hr.toReady hfar hj (h.isAccepted_iff.mpr (Or.inr hja0))
      rw [hje, hunaccepted] at hja0
      cases hja0

theorem straight_seed (hu : m.mesh.Undirected) (hn : starts.Nodup)
    (hlt : ∀ c ∈ starts, c < m.mesh.size)
    (hs : (fresh m.mesh.size).seed m starts = .ok r) : r.Straight m starts := by
  obtain ⟨r1, r2, h, hw, ⟨c, -, -, hs'⟩ | ⟨-, hs', hsound⟩⟩ := seed_cases hu hn hlt
  · rw [hs'] at hs
    cases hs
  rw [hs'] at hs
  cases hs
  have hacc : ∀ d, r.isAccepted d ↔ d ∈ starts := fun d => by
    rw [hw.isAccepted_eq, h.isAccepted]
  refine ⟨hsound, fun c hc => (hacc c).mpr hc, ?_⟩
  intro c j hcs hc hj hjc hno hn
  have hc : r.stateOf c = .considered := hc.resolve_right fun hca => hcs ((hacc c).mp hca)
  refine hsound.le_fromLine hu hc hj (hsound.coherent.isAccepted_of_before hjc) (fun d hd => ?_)
    hno hn
  exact List.mem_append_left _ ((hacc d).mp hd)

/-- A solve that comes to its end leaves a straight run. -/
theorem straight_solve (hu : m.mesh.Undirected) (hn : starts.Nodup)
    (hlt : ∀ c ∈ starts, c < m.mesh.size) (hr : r.Sized m.mesh.size) {bound : Int}
    (h : solve m bound starts r = .ok r') : r'.Straight m starts := by
  refine (of_solve_eq_ok (fun r1 hs => ?_) (fun a b ha hab => ha.of_step hu hab) h).1
  rw [hr.reset] at hs
  exact straight_seed hu hn hlt hs

/-! ### Cells among start cells -/

end Run

/-- In exact arithmetic the arrivals over the ends of a chord are the line updates from there. -/
theorem Medium.IsReal.endsAtLines {m : Medium EReal} {x : ℕ → Fin 2 → ℝ}
    {M : ℕ → Matrix (Fin 2) (Fin 2) ℝ} (hm : m.IsReal x M) (hu : m.mesh.Undirected)
    {u : Array EReal} {c : ℕ} {p : ℕ × ℕ} (hM : (M c).IsHermitian)
    (hp : p ∈ cyclicPairs (m.around c)) {v w : ℝ} (hv : u.getD p.1 Scalar.inf = v)
    (hw : u.getD p.2 Scalar.inf = w) : m.EndsAtLines u c p := by
  obtain ⟨h1, h2⟩ := mem_of_mem_cyclicPairs hp
  have hc := hu.lt_left h1
  have hchord : m.chord u c p = Stencil.Chord.of (.ofReal (x c)) (.ofReal (x p.1)) v
      (.ofReal (x p.2)) w (.ofReal (M c)) := by
    rw [chord, hm.point c hc, hm.point p.1 (hu.lt_right h1), hm.point p.2 (hu.lt_right h2),
      hm.tensor c hc, hv, hw]
  constructor
  · rw [hchord, Exact.one_eq, ← EReal.coe_one, Stencil.cost_of hM, fromLine, Stencil.line,
      hm.point c hc, hm.point p.1 (hu.lt_right h1), hm.tensor c hc, hv, Exact.ofReal_sub,
      Exact.length_ofReal, ← EReal.coe_add]
    simp
  · rw [hchord, Exact.zero_eq, ← EReal.coe_zero, Stencil.cost_of hM, fromLine, Stencil.line,
      hm.point c hc, hm.point p.2 (hu.lt_right h2), hm.tensor c hc, hw, Exact.ofReal_sub,
      Exact.length_ofReal, ← EReal.coe_add]
    simp

/-- A solve that comes to its end leaves every accepted cell bounded by the line updates from cells
accepted before it. -/
theorem Run.lineBounded_solve [LawfulScalar α] {m : Medium α} {starts : List Nat} {r r' : Run α}
    (hu : m.mesh.Undirected) (hn : starts.Nodup) (hlt : ∀ c ∈ starts, c < m.mesh.size)
    (hr : r.Sized m.mesh.size) {bound : Int} (h : r.solve m bound starts = .ok r') {c : Nat}
    (hc : r'.isAccepted c) (hcs : c ∉ starts) : r'.LineBounded m starts r'.solution c := by
  have hstraight := straight_solve hu hn hlt hr h
  obtain ⟨hlinked, -⟩ := linked_solve hu hn hlt hr h
  obtain ⟨-, hend, -⟩ := (invariant_certified hu).solve hu hn hlt hr bound
  refine ⟨fun j hj hjc hno hnan => hstraight.le_line c j hcs (Or.inr hc) hj hjc hno hnan, ?_⟩
  intro p hp hp1 hp2 he hnan1 hnan2
  have hnonneg : ∀ d ∈ r'.acceptedBefore c, Scalar.le Scalar.zero (r'.valueOf d) := fun d hd =>
    hlinked.nonneg d (Or.inl (hlinked.coherent.isAccepted_of_before hd))
  obtain ⟨hle1, hle2⟩ := he.across_le hnan1 hnan2 (hnonneg _ hp1) (hnonneg _ hp2)
  have hacross := ((hend r' h).2.1.certificate c hc hcs).le_across p hp ⟨hp1, hp2⟩
    (OrderedScalar.not_nan_left hle1)
  exact ⟨OrderedScalar.le_trans hacross hle1, OrderedScalar.le_trans hacross hle2⟩

namespace Solver

open Matrix

/-! ### A cell with a wedge -/

section Solve

variable [LawfulScalar α] {memory : Memory} {g : CellGrid α} {mesh : Mesh α} {s : Solver α}
  {metric : NdArray α} {starts : Json} {field : MetricField α} {cells : List Nat} {u : Array α}

end Solve

section Exact

variable {memory : Memory} {g : CellGrid EReal} {mesh : Mesh EReal} {s : Solver EReal}
  {metric : NdArray EReal} {starts : Json} {cells : List ℕ} {u : Array EReal}
  {x : ℕ → Fin 2 → ℝ} {M : ℕ → Matrix (Fin 2) (Fin 2) ℝ} {c j : ℕ}

/-- In exact arithmetic the arrivals over the ends of a chord always are the line updates from
there. So the value of a cell does not exceed the direct travel time from a neighbour that was
accepted while no triangle gave the cell a value; and from a neighbour that bounds a wedge with
another cell accepted before, it exceeds the direct travel time to reach the time of the other cell
at most. The neighbour itself has a finite time. -/
theorem le_direct_unless_bypassed (hg : Mesh.ofGrid memory g = .ok mesh) (hs : Reachable mesh s)
    (hx : ∀ c < mesh.size, mesh.point c = .ofReal (x c))
    (hM : MetricField.tensors? s.size metric = some (.ofReal mesh.size M))
    (hpos : ∀ c < mesh.size, (M c).PosDef) (hstart : startCells s.size starts = .ok cells)
    (hret : (s.solve metric starts).2 = .ok u) (hc : (s.solve metric starts).1.run.isAccepted c)
    (hcs : c ∉ cells) (hj : j ∈ mesh.around c)
    (hjc : j ∈ (s.solve metric starts).1.run.acceptedBefore c) :
    ∃ v : ℝ, u.getD j ⊤ = v ∧
      let direct : EReal := (v + √((x c - x j) ⬝ᵥ M c *ᵥ (x c - x j)) : ℝ)
      (Medium.NoTriangle ⟨mesh, .ofReal mesh.size M⟩ u
        ((s.solve metric starts).1.run.acceptedWith cells j) c → u.getD c ⊤ ≤ direct) ∧
      ∀ k ∈ (s.solve metric starts).1.run.acceptedBefore c,
        (j, k) ∈ Medium.wedges ⟨mesh, .ofReal mesh.size M⟩ c ∨
          (k, j) ∈ Medium.wedges ⟨mesh, .ofReal mesh.size M⟩ c →
        u.getD c ⊤ ≤ max direct (u.getD k ⊤) := by
  obtain ⟨rfl, hsized⟩ := hs.sized
  have hu := Mesh.undirected_of_ofGrid hg
  have hm := Medium.isReal_ofReal (M := M) hx
  have hin : s.checkInput metric starts = .ok (.ofReal s.mesh.size M, cells) :=
    checkInput_eq_ok_iff.mpr ⟨MetricField.ofArray_of_posDef hM hpos, hstart⟩
  obtain ⟨hasc, hlt⟩ := starts_of_checkInput hin
  have hn : cells.Nodup := hasc.imp fun h => Nat.ne_of_lt h
  obtain ⟨r, hr, hrun, rfl⟩ := exists_run_of_returned hin hret
  rw [hrun] at hc hjc ⊢
  have hbounded := Run.lineBounded_solve hu hn hlt hsized hr hc hcs
  obtain ⟨hlinked, -⟩ := Run.linked_solve hu hn hlt hsized hr
  have hreal : ∀ d ∈ r.acceptedBefore c, ∃ v : ℝ, r.solution.getD d Scalar.inf = (v : EReal) := by
    intro d hd
    have hfin := Exact.isFinite_iff.mp
      (hlinked.isFinite_valueOf (hlinked.coherent.isAccepted_of_before hd))
    exact ⟨_, (EReal.coe_toReal hfin.1 hfin.2).symm⟩
  obtain ⟨v, hv⟩ := hreal j hjc
  refine ⟨v, hv, ?_⟩
  rw [← hm.fromLine_eq hu hj hv]
  intro direct
  refine ⟨fun hno => Exact.le_iff.mp (hbounded.alone j hj hjc hno (Exact.isNaN_eq _)), ?_⟩
  intro k hk hwedge
  obtain ⟨w, hw⟩ := hreal k hk
  have hsymm := (hpos c (hu.lt_left hj)).isHermitian
  rcases hwedge with hwedge | hwedge
  · have hends := hm.endsAtLines hu hsymm (Medium.mem_wedges.mp hwedge).1 hv hw
    have h := (hbounded.paired _ hwedge hjc hk hends (Exact.isNaN_eq _) (Exact.isNaN_eq _)).1
    rwa [Exact.le_iff, Exact.upper_eq] at h
  · have hends := hm.endsAtLines hu hsymm (Medium.mem_wedges.mp hwedge).1 hw hv
    have h := (hbounded.paired _ hwedge hk hjc hends (Exact.isNaN_eq _) (Exact.isNaN_eq _)).2
    rwa [Exact.le_iff, Exact.upper_eq] at h

end Exact

/-! ### A cell that gets more than the direct travel time -/

end Solver

end Eikonal
