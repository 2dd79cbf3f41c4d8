import Eikonal.Grid.Cartesian
import Eikonal.Proofs.Solver.Certificate
import Eikonal.Proofs.Solver.Distance

/-! Grids without wedges. Where no two consecutive neighbours bound a wedge, every value is a line
update, and a solve is a shortest path search: in exact arithmetic it finds for every cell the least
time of the neighbour paths from the start cells. A line update depends on the metric of the cell it
leads to, so the two directions of a link have times of their own. The certificates of the values
bound them along a path from the cells accepted before, and the order of acceptance does so from the
cells accepted after. -/

namespace Eikonal

open Matrix

/-- No two consecutive neighbours of a cell bound a wedge with it. -/
def Mesh.WedgeFree {α : Type} [Scalar α] (mesh : Mesh α) : Prop :=
  ∀ c < mesh.size, ∀ p ∈ cyclicPairs (mesh.around c),
    Stencil.isWedge (mesh.point c) (mesh.point p.1) (mesh.point p.2) = false

/-! ### Cells on a line -/

section Line

variable {mesh : Mesh EReal} {x : ℕ → Fin 2 → ℝ}

/-- Points on a line bound no wedge: the cross product of their directions vanishes. -/
theorem Mesh.wedgeFree_of_line (hu : mesh.Undirected)
    (hx : ∀ c < mesh.size, mesh.point c = .ofReal (x c)) {a d : Fin 2 → ℝ}
    (hline : ∀ c < mesh.size, ∃ t : ℝ, x c = a + t • d) : mesh.WedgeFree := by
  intro c hc p hp
  obtain ⟨h1, h2⟩ := mem_of_mem_cyclicPairs hp
  have hp1 := hu.lt_right h1
  have hp2 := hu.lt_right h2
  obtain ⟨s, hs⟩ := hline c hc
  obtain ⟨t, ht⟩ := hline p.1 hp1
  obtain ⟨w, hw⟩ := hline p.2 hp2
  have hcross : (x p.1 - x c) 0 * (x p.2 - x c) 1 - (x p.1 - x c) 1 * (x p.2 - x c) 0 = 0 := by
    rw [hs, ht, hw]
    simp only [Pi.sub_apply, Pi.add_apply, Pi.smul_apply, smul_eq_mul]
    ring
  rw [hx c hc, hx p.1 hp1, hx p.2 hp2, Bool.eq_false_iff, ne_eq, Stencil.isWedge_ofReal, hcross,
    not_lt]
  positivity

/-- The cells of a chain lie on the x axis. -/
theorem CellGrid.line_of_chain {memory : Memory} {n : Int} {spacing : EReal}
    {g : CellGrid EReal} (hg : Mesh.ofGrid memory g = .ok mesh)
    (hchain : chain memory n spacing = .ok g)
    (hx : ∀ c < mesh.size, mesh.point c = .ofReal (x c)) {c : ℕ} (hc : c < mesh.size) :
    ∃ t : ℝ, x c = 0 + t • ![1, 0] := by
  have hy : (mesh.point c).y = 0 := by
    unfold chain at hchain
    cases hsizes : (NdArray.checkSizes memory 8 [n]).mapError GridError.array with
    | error e =>
      rw [hsizes] at hchain
      cases hchain
    | ok u =>
      rw [hsizes] at hchain
      cases hchain
      have hpoints := Mesh.points_of_ofGrid hg
      rw [Mesh.size, hpoints] at hc
      have hc : c < n.toNat := by simpa [points] using hc
      rw [Mesh.point, hpoints]
      simp [points, planePoint, hc]
  rw [hx c hc] at hy
  have hy : x c 1 = 0 := by simpa [Vec.ofReal] using hy
  refine ⟨x c 0, ?_⟩
  ext i
  fin_cases i <;> simp [hy]

end Line

/-! ### Path times -/

/-- The times of the neighbour paths from the start cells. A step costs its length in the metric of
the cell it leads to. -/
inductive Arrives (mesh : Mesh EReal) (x : ℕ → Fin 2 → ℝ) (M : ℕ → Matrix (Fin 2) (Fin 2) ℝ)
    (starts : List ℕ) : ℕ → ℝ → Prop
  | start {c : ℕ} : c ∈ starts → Arrives mesh x M starts c 0
  | step {c j : ℕ} {t : ℝ} : Arrives mesh x M starts j t → c ∈ mesh.around j →
    Arrives mesh x M starts c (t + √((x c - x j) ⬝ᵥ M c *ᵥ (x c - x j)))

section Arrives

variable {mesh : Mesh EReal} {x : ℕ → Fin 2 → ℝ} {M : ℕ → Matrix (Fin 2) (Fin 2) ℝ}
  {starts : List ℕ} {c : ℕ} {t : ℝ}

theorem Arrives.nonneg (h : Arrives mesh x M starts c t) : 0 ≤ t := by
  induction h with
  | start _ => exact le_rfl
  | step _ _ ih => exact add_nonneg ih (Real.sqrt_nonneg _)

theorem Arrives.mem_connected (h : Arrives mesh x M starts c t) : c ∈ mesh.connected starts := by
  induction h with
  | start hc => exact Mesh.mem_connected_of_mem hc
  | step _ hc ih => exact Mesh.mem_connected_of_around ih hc

end Arrives

namespace Run

variable {m : Medium EReal} {x : ℕ → Fin 2 → ℝ} {M : ℕ → Matrix (Fin 2) (Fin 2) ℝ}
  {starts : List ℕ} {r : Run EReal} {c : ℕ} {t : ℝ}

theorem Certified.least_line (hcert : r.Certified m starts) (hw : m.mesh.WedgeFree)
    (hco : r.Coherent m.mesh.size) (hc : r.isAccepted c) (hcs : c ∉ starts) :
    (∃ j ∈ m.around c, j ∈ r.acceptedBefore c ∧ r.valueOf c = m.fromLine r.solution c j) ∧
      ∀ j ∈ m.around c, j ∈ r.acceptedBefore c → r.valueOf c ≤ m.fromLine r.solution c j := by
  have hnone : m.wedges c = [] := by
    refine List.filter_eq_nil_iff.mpr fun p hp hwedge => ?_
    exact Bool.eq_false_iff.mp (hw c (hco.sized.lt_of_isAccepted hc) p hp) hwedge
  obtain ⟨hline, hle⟩ := (hcert.certificate c hc hcs).least_line (by simp [hnone])
  exact ⟨hline, fun j hj hjc => Exact.le_iff.mp (hle j hj hjc (Exact.isNaN_eq _))⟩

variable (hm : m.IsReal x M) (hu : m.mesh.Undirected) (hw : m.mesh.WedgeFree)
include hm hu hw

/-- The value of an accepted cell is the time of a path. -/
theorem Linked.exists_arrives (hr : r.Linked m starts) (hcert : r.Certified m starts)
    (hc : r.isAccepted c) : ∃ t : ℝ, Arrives m.mesh x M starts c t ∧ r.valueOf c = t := by
  -- the neighbour that the value comes from was accepted before
  induction hn : (r.acceptedBefore c).length using Nat.strong_induction_on generalizing c with
  | _ n ih =>
    subst hn
    by_cases hcs : c ∈ starts
    · exact ⟨0, .start hcs, (hr.started c hcs).2⟩
    obtain ⟨⟨j, hj, hjc, hv⟩, -⟩ := hcert.least_line hw hr.coherent hc hcs
    obtain ⟨t, ht, hvj⟩ := ih _ (length_acceptedBefore_lt hjc)
      (hr.coherent.isAccepted_of_before hjc) rfl
    rw [hm.fromLine_eq hu hj hvj] at hv
    exact ⟨_, .step ht (hu.symm hj), hv⟩

/-- No path is faster than the value of the cell it leads to. -/
theorem Linked.valueOf_le (hr : r.Linked m starts) (hcert : r.Certified m starts)
    (hacc : ∀ c, r.isAccepted c ↔ c ∈ m.mesh.connected starts)
    (h : Arrives m.mesh x M starts c t) : r.valueOf c ≤ t := by
  induction h with
  | @start c hc => exact (hr.started c hc).2.le
  | @step c j t hj hcj ih =>
    have hja : r.isAccepted j := (hacc j).mpr hj.mem_connected
    have hca : r.isAccepted c := (hacc c).mpr (Mesh.mem_connected_of_around hj.mem_connected hcj)
    have hroot := Real.sqrt_nonneg ((x c - x j) ⬝ᵥ M c *ᵥ (x c - x j))
    by_cases hcs : c ∈ starts
    · rw [(hr.started c hcs).2, Exact.zero_eq]
      exact_mod_cast add_nonneg hj.nonneg hroot
    rcases before_or_before ((hr.coherent.mem_order c).mpr hca) ((hr.coherent.mem_order j).mpr hja)
      (hu.ne hcj) with hbefore | hbefore
    · calc r.valueOf c ≤ r.valueOf j := Exact.le_iff.mp (hr.le_of_before hja hbefore)
        _ ≤ t := ih
        _ ≤ _ := by exact_mod_cast le_add_of_nonneg_right hroot
    · obtain ⟨v, -, hv⟩ := hr.exists_arrives hm hu hw hcert hja
      have hline := (hcert.least_line hw hr.coherent hca hcs).2 j (hu.symm hcj) hbefore
      rw [hm.fromLine_eq hu (hu.symm hcj) hv] at hline
      rw [hv, EReal.coe_le_coe_iff] at ih
      refine hline.trans (EReal.coe_le_coe_iff.mpr ?_)
      gcongr

end Run

namespace Solver

variable {memory : Memory} {g : CellGrid EReal} {mesh : Mesh EReal} {s : Solver EReal}
  {metric : NdArray EReal} {starts : Json} {cells : List ℕ} {x : ℕ → Fin 2 → ℝ}
  {M : ℕ → Matrix (Fin 2) (Fin 2) ℝ}

/-- On a grid without wedges, as a chain is and any grid with its centroids on a line, a solve in
exact arithmetic returns for every cell the least time of the neighbour paths from the start cells,
and infinity for a cell without such a path. With the default bound the solve returns. -/
theorem wedge_free_solve_shortest (hg : Mesh.ofGrid memory g = .ok mesh) (hs : Reachable mesh s)
    (hx : ∀ c < mesh.size, mesh.point c = .ofReal (x c))
    (hM : MetricField.tensors? s.size metric = some (.ofReal mesh.size M))
    (hpos : ∀ c < mesh.size, (M c).PosDef) (hstart : startCells s.size starts = .ok cells)
    (hw : mesh.WedgeFree ∨ (∃ n spacing, CellGrid.chain memory n spacing = .ok g) ∨
      ∃ a d : Fin 2 → ℝ, ∀ c < mesh.size, ∃ t : ℝ, x c = a + t • d) :
    (∀ u, (s.solve metric starts).2 = .ok u → ∀ c < mesh.size,
      (∃ t : ℝ, IsLeast {t | Arrives mesh x M cells c t} t ∧ u.getD c Scalar.inf = t) ∨
        (∀ t, ¬Arrives mesh x M cells c t) ∧ u.getD c Scalar.inf = Scalar.inf) ∧
      (s.bound? = none → ∃ u, (s.solve metric starts).2 = .ok u) := by
  obtain ⟨rfl, hsized⟩ := hs.sized
  have hin : s.checkInput metric starts = .ok (.ofReal s.mesh.size M, cells) :=
    checkInput_eq_ok_iff.mpr ⟨MetricField.ofArray_of_posDef hM hpos, hstart⟩
  obtain ⟨hasc, hlt⟩ := starts_of_checkInput hin
  have hn : cells.Nodup := hasc.imp fun h => Nat.ne_of_lt h
  have hu := Mesh.undirected_of_ofGrid hg
  have hm : Medium.IsReal ⟨s.mesh, .ofReal s.mesh.size M⟩ x M := Medium.isReal_ofReal hx
  have hw : s.mesh.WedgeFree := by
    rcases hw with hw | ⟨n, spacing, hchain⟩ | ⟨a, d, hline⟩
    · exact hw
    · exact Mesh.wedgeFree_of_line hu hx fun c hc => CellGrid.line_of_chain hg hchain hx hc
    · exact Mesh.wedgeFree_of_line hu hx hline
  refine ⟨fun u hret c hc => ?_, fun hb => exists_returned hg hs hb hin hm⟩
  obtain ⟨r, hr, -, rfl⟩ := exists_run_of_returned hin hret
  obtain ⟨hlinked, hempty⟩ :=
    Run.linked_solve (m := ⟨s.mesh, .ofReal s.mesh.size M⟩) hu hn hlt hsized hr
  obtain ⟨-, hend, -⟩ :=
    (Run.invariant_certified (m := ⟨s.mesh, .ofReal s.mesh.size M⟩) hu).solve hu hn hlt hsized
      s.bound
  have hcert := (hend r hr).2.1
  have hacc : ∀ c, r.isAccepted c ↔ c ∈ s.mesh.connected cells := fun c =>
    hlinked.isAccepted_iff hu (hlinked.coherent.isEmpty_iff.mp hempty)
  by_cases hca : r.isAccepted c
  · obtain ⟨t, ht, hv⟩ := hlinked.exists_arrives hm hu hw hcert hca
    refine Or.inl ⟨t, ⟨ht, fun t' ht' => ?_⟩, hv⟩
    have hle := hlinked.valueOf_le hm hu hw hcert hacc ht'
    rwa [hv, EReal.coe_le_coe_iff] at hle
  · rw [hacc] at hca
    exact Or.inr ⟨fun t ht => hca ht.mem_connected,
      ((hlinked.complete hu hempty).far c hc hca).2⟩

theorem wedge_free_solve_shortest_sample :
    ∃ u, ((new exactMesh none).solve exactMetric sampleStarts).2 = .ok u ∧
      ∃ t : ℝ, IsLeast {t | Arrives exactMesh (fun c => ![(c : ℝ), 0]) (fun _ => diagonal ![4, 1])
        [0] 1 t} t ∧ u.getD 1 Scalar.inf = t := by
  obtain ⟨hshortest, hreturns⟩ := wedge_free_solve_shortest (s := new exactMesh none)
    (x := fun c => ![(c : ℝ), 0]) (M := fun _ => diagonal ![4, 1]) ofGrid_exactGrid (.new none)
    (fun _ hc => point_exactMesh hc) tensors_exactMetric (fun _ _ => posDef_exactMetric)
    startCells_exactMesh (Or.inr (Or.inr ⟨0, ![1, 0], fun c _ => ⟨c, by simp⟩⟩))
  obtain ⟨u, hu⟩ := hreturns rfl
  have hlink : 1 ∈ exactMesh.around 0 := by
    rw [show exactMesh.around 0 = sortByAngle _ [1] from rfl, (sortByAngle_perm _ _).mem_iff]
    exact List.mem_singleton_self 1
  rcases hshortest u hu 1 (by rw [size_exactMesh]; decide) with h | ⟨hnone, -⟩
  · exact ⟨u, hu, h⟩
  · exact absurd (.step (.start (List.mem_singleton_self 0)) hlink) (hnone _)

end Solver

end Eikonal
