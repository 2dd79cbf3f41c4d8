import Eikonal.Proofs.Scalar.Scaling
import Eikonal.Proofs.Solver.Complete

/-! Similar media. Where the updates of one medium are those of another times a positive factor, and
neighbours and cyclic pairs of neighbours are the same in whatever order they are listed, a run in
the one mirrors a run in the other: the same cells are accepted in the same steps, as often a value
falls, and all values carry the factor. The lists are read in other orders, so the heaps differ;
they give the same entries, since the first one is determined by its value and its cell. -/

namespace Eikonal

namespace Medium

/-- The updates of the medium `m'` are `κ` times those of `m`. -/
structure Similar (κ : ℝ) (m m' : Medium EReal) : Prop where
  pos : 0 < κ
  size : m'.mesh.size = m.mesh.size
  mem_around : ∀ c d, d ∈ m'.around c ↔ d ∈ m.around c
  mem_pairs : ∀ c p, p ∈ cyclicPairs (m'.around c) ↔ p ∈ cyclicPairs (m.around c)
  fromLine : ∀ (u u' : Array EReal) (c j : ℕ), j ∈ m.around c →
    u'.getD j Scalar.inf = κ * u.getD j Scalar.inf → m'.fromLine u' c j = κ * m.fromLine u c j
  fromTriangle : ∀ (u u' : Array EReal) (c : ℕ) (p : ℕ × ℕ), p ∈ cyclicPairs (m.around c) →
    u'.getD p.1 Scalar.inf = κ * u.getD p.1 Scalar.inf →
    u'.getD p.2 Scalar.inf = κ * u.getD p.2 Scalar.inf →
    m'.fromTriangle u' c p.1 p.2 = κ * m.fromTriangle u c p.1 p.2

variable {κ : ℝ} {m m' : Medium EReal} {f f' : Front} {u u' : Array EReal} {c : ℕ}

theorem Similar.tentative? (h : m.Similar κ m')
    (hf : ∀ d ∈ m.around c, f'.contains d = f.contains d)
    (hu : ∀ d ∈ m.around c, f.contains d → u'.getD d Scalar.inf = κ * u.getD d Scalar.inf) :
    m'.tentative? f' u' c = (m.tentative? f u c).map ((κ : EReal) * ·) := by
  have hline : m'.byLine f' u' c = κ * m.byLine f u c := by
    refine Exact.leastOf_scale h.pos fun v => ?_
    simp only [List.mem_map, mem_upwind, h.mem_around]
    constructor
    · rintro ⟨j, ⟨hj, hjf⟩, rfl⟩
      rw [hf j hj] at hjf
      exact ⟨_, ⟨j, ⟨hj, hjf⟩, rfl⟩, (h.fromLine u u' c j hj (hu j hj hjf)).symm⟩
    · rintro ⟨_, ⟨j, ⟨hj, hjf⟩, rfl⟩, rfl⟩
      exact ⟨j, ⟨hj, by rwa [hf j hj]⟩, h.fromLine u u' c j hj (hu j hj hjf)⟩
  have htriangle : m'.byTriangle f' u' c = κ * m.byTriangle f u c := by
    refine Exact.leastOf_scale h.pos fun v => ?_
    simp only [List.mem_map, mem_upwindPairs, h.mem_pairs]
    constructor
    · rintro ⟨p, ⟨hp, hp1, hp2⟩, rfl⟩
      obtain ⟨h1, h2⟩ := mem_of_mem_cyclicPairs hp
      rw [hf _ h1] at hp1
      rw [hf _ h2] at hp2
      exact ⟨_, ⟨p, ⟨hp, hp1, hp2⟩, rfl⟩,
        (h.fromTriangle u u' c p hp (hu _ h1 hp1) (hu _ h2 hp2)).symm⟩
    · rintro ⟨_, ⟨p, ⟨hp, hp1, hp2⟩, rfl⟩, rfl⟩
      obtain ⟨h1, h2⟩ := mem_of_mem_cyclicPairs hp
      exact ⟨p, ⟨hp, by rwa [hf _ h1], by rwa [hf _ h2]⟩,
        h.fromTriangle u u' c p hp (hu _ h1 hp1) (hu _ h2 hp2)⟩
  have hinf : ∀ a : EReal, Scalar.eq ((κ : EReal) * a) Scalar.inf = Scalar.eq a Scalar.inf := by
    intro a
    rw [← Exact.scale_inf h.pos, Exact.scale_eq h.pos, Exact.scale_inf h.pos]
  rw [tentative?_eq, tentative?_eq, hline, htriangle, hinf]
  dsimp only
  rw [← apply_ite, hinf, apply_ite (Option.map _)]
  rfl

end Medium

namespace Run

/-- The run `b` is as far as the run `a`, and its values are `κ` times those of `a`. -/
structure Scaled (κ : ℝ) (a b : Run EReal) : Prop where
  stateOf : ∀ c, b.stateOf c = a.stateOf c
  isAccepted : ∀ c, b.isAccepted c = a.isAccepted c
  valueOf : ∀ c, b.valueOf c = κ * a.valueOf c
  order : b.order = a.order
  iterations : b.iterations = a.iterations
  relaxations : b.relaxations = a.relaxations

variable {κ : ℝ} {m m' : Medium EReal} {starts : List ℕ} {a a1 a' b b1 b' : Run EReal}
  {c n n' k : ℕ} {p q : ℕ → Prop} {f g : ℕ → EReal} {e e' : Entry ℕ EReal}

theorem Reassigned.scaled (ha : Reassigned n a p f k a') (hb : Reassigned n' b q g k b')
    (h : Scaled κ a b) (hpq : ∀ d, q d ↔ p d) (hfg : ∀ d, p d → g d = κ * f d) :
    Scaled κ a' b' := by
  refine ⟨fun d => ?_, fun d => ?_, fun d => ?_, ?_, ?_, ?_⟩
  · by_cases hd : p d
    · rw [(ha.inside d hd).1, (hb.inside d ((hpq d).mpr hd)).1]
    · rw [(ha.outside d hd).1, (hb.outside d (mt (hpq d).mp hd)).1, h.stateOf]
  · rw [ha.isAccepted_eq, hb.isAccepted_eq, h.isAccepted]
  · by_cases hd : p d
    · rw [(ha.inside d hd).2, (hb.inside d ((hpq d).mpr hd)).2, hfg d hd]
    · rw [(ha.outside d hd).2, (hb.outside d (mt (hpq d).mp hd)).2, h.valueOf]
  · rw [ha.order, hb.order, h.order]
  · rw [ha.iterations, hb.iterations, h.iterations]
  · rw [ha.relaxations, hb.relaxations, h.relaxations]

theorem before_scale (hκ : 0 < κ) (v w : EReal) (c d : ℕ) :
    Entry.before ⟨(κ : EReal) * v, c⟩ ⟨(κ : EReal) * w, d⟩ = Entry.before ⟨v, c⟩ ⟨w, d⟩ := by
  unfold Entry.before
  dsimp only
  rw [Exact.scale_eq hκ, Exact.scale_lt hκ]

/-- Neither of the cells that the runs accept comes before the other. -/
theorem Accepts.cell_eq (ha : Accepts m a e a1) (hb : Accepts m' b e' b1) (hκ : 0 < κ)
    (h : Scaled κ a b) : e'.cell = e.cell := by
  have h1 := hb.first e.cell (by rw [h.stateOf, ha.considered])
  have h2 := ha.first e'.cell (by rw [← h.stateOf, hb.considered])
  obtain ⟨v, c⟩ := e
  obtain ⟨w, d⟩ := e'
  have hv : a.valueOf c = v := ha.value
  have hw : κ * a.valueOf d = w := (h.valueOf d).symm.trans hb.value
  rw [h.valueOf, ← hw, before_scale hκ, hv] at h1
  exact Entry.cell_eq_of_not_before (a := ⟨a.valueOf d, d⟩) (Exact.isNaN_eq _) (Exact.isNaN_eq _)
    h1 h2

theorem Accepts.scaled (ha : Accepts m a e a1) (hb : Accepts m' b e' b1) (hκ : 0 < κ)
    (h : Scaled κ a b) : Scaled κ a1 b1 := by
  have hcell := ha.cell_eq hb hκ h
  refine ⟨fun d => ?_, fun d => ?_, fun d => ?_, ?_, ?_, ?_⟩
  · rw [ha.settled.stateOf, hb.settled.stateOf, hcell, h.stateOf]
  · rw [ha.settled.isAccepted, hb.settled.isAccepted, hcell, h.isAccepted]
  · rw [ha.valueOf_eq, hb.valueOf_eq, h.valueOf]
  · rw [ha.settled.order, hb.settled.order, hcell, h.order]
  · rw [ha.iterations, hb.iterations, h.iterations]
  · rw [ha.settled.relaxations, hb.settled.relaxations, h.relaxations]

theorem Seeds.scaled (ha : Seeds m starts a) (hb : Seeds m' starts b)
    (hsize : m'.mesh.size = m.mesh.size) (hκ : 0 < κ) : Scaled κ a b := by
  refine ⟨fun c => ?_, fun c => ?_, fun c => ?_, ?_, ?_, ?_⟩
  · rw [ha.stateOf_eq, hb.stateOf_eq, hsize]
  · rw [Bool.eq_iff_iff, hb.isAccepted, ha.isAccepted]
  · rw [ha.valueOf_eq, hb.valueOf_eq]
    split
    · simp
    · exact (Exact.scale_inf hκ).symm
  · rw [ha.order, hb.order]
  · rw [ha.iterations, hb.iterations]
  · rw [ha.relaxations, hb.relaxations]

theorem Scaled.solution_eq (h : Scaled κ a b) (ha : a.Sized n) (hb : b.Sized n) :
    b.solution = a.solution.map ((κ : EReal) * ·) := by
  refine Array.ext (by rw [Array.size_map, ha.solution, hb.solution]) fun c h1 h2 => ?_
  have hc : c < a.solution.size := by rwa [Array.size_map] at h2
  have hv : b.solution.getD c Scalar.inf = κ * a.solution.getD c Scalar.inf := h.valueOf c
  simpa [Array.getD, h1, hc] using hv

/-- Both runs come to their end or both are refused for the same cause, with values that carry the
factor `κ`. -/
structure Mirrored (κ : ℝ) (x y : Except (Stopped EReal) (Run EReal)) : Prop where
  scaled : Scaled κ (left x) (left y)
  outcome : Solver.outcome y = (Solver.outcome x).map fun u => u.map ((κ : EReal) * ·)

section Similar

variable (hs : m.Similar κ m') (hu : m.mesh.Undirected) (hu' : m'.mesh.Undirected)
include hs hu hu'

section Offer

variable (h : Scaled κ a b) (hac : a.Coherent m.mesh.size) (haf : a.FrontExact m.mesh)
  (hbf : b.FrontExact m'.mesh)
include h hac haf hbf

/-- Next to a cell that is not accepted both fronts hold the same cells. -/
theorem Scaled.offer (hc : a.stateOf c ≠ .accepted) :
    (b.arrival m' c).getD Scalar.inf = κ * (a.arrival m c).getD Scalar.inf := by
  have hne := hac.not_accepted hc
  have harr : b.arrival m' c = (a.arrival m c).map ((κ : EReal) * ·) := by
    refine hs.tentative? (fun d hd => ?_) fun d _ _ => h.valueOf d
    rw [haf.contains_of_around hu hne hd, hbf.contains_of_around hu' (by rwa [h.isAccepted])
      ((hs.mem_around c d).mpr hd), h.isAccepted]
  rw [harr]
  cases a.arrival m c with
  | none => exact (Exact.scale_inf hs.pos).symm
  | some v => rfl

theorem Scaled.widens {cs cs' : List ℕ} (ha : Widens m a cs a1) (hb : Widens m' b cs' b1)
    (hstuck : cs.find? (a.isStuck m) = none) (hstuck' : cs'.find? (b.isStuck m') = none)
    (hcs : ∀ d, d ∈ cs' ↔ d ∈ cs) : Scaled κ a1 b1 :=
  (ha.reassigned hstuck).scaled (hb.reassigned hstuck') h
    (fun d => by rw [hcs, h.stateOf]) fun d hd =>
      h.offer hs hu hu' hac haf hbf (by rw [hd.2]; decide)

theorem Scaled.relaxes (ha : Relaxes m a a1) (hb : Relaxes m' b b1) : Scaled κ a1 b1 := by
  have hoffer : ∀ d, a.stateOf d = .considered →
      (b.arrival m' d).getD Scalar.inf = κ * (a.arrival m d).getD Scalar.inf := fun d hd =>
    h.offer hs hu hu' hac haf hbf (by rw [hd]; decide)
  have hcount : ((Finset.range m'.mesh.size).filter fun d =>
        b.stateOf d = .considered ∧ b.falls m' d) =
      (Finset.range m.mesh.size).filter fun d => a.stateOf d = .considered ∧ a.falls m d := by
    rw [hs.size]
    refine Finset.filter_congr fun d _ => ?_
    rw [h.stateOf]
    refine and_congr_right fun hd => ?_
    rw [falls, falls, hoffer d hd, h.valueOf, Exact.scale_lt hs.pos]
  unfold Relaxes at hb
  rw [hcount] at hb
  refine Reassigned.scaled ha hb h (fun d => by rw [h.stateOf]) fun d hd => ?_
  rw [relaxed, relaxed, hoffer d hd, h.valueOf, Exact.scale_lower hs.pos]

end Offer

theorem Scaled.step (h : Scaled κ a b) (ha : a.Sound m) (hb : b.Sound m')
    (hstep : a.step m = .ok a') (hstep' : b.step m' = .ok b') : Scaled κ a' b' := by
  obtain ⟨e, a1, a2, h1, hw, hstuck, -, hall, -⟩ := ha.parts_of_step hu hstep
  obtain ⟨e', b1, b2, h1', hw', hstuck', -, hall', -⟩ := hb.parts_of_step hu' hstep'
  have hscaled2 : Scaled κ a2 b2 := by
    refine (h1.scaled h1' hs.pos h).widens hs hu hu' h1.settled.coherent h1.front h1'.front hw hw'
      hstuck hstuck' ?_
    rw [h1.cell_eq h1' hs.pos h]
    exact hs.mem_around e.cell
  exact hscaled2.relaxes hs hu hu' hw.coherent (h1.front.congr hw.front hw.accepted)
    (h1'.front.congr hw'.front hw'.accepted) hall hall'

theorem scaled_seed (hn : starts.Nodup) (hlt : ∀ c ∈ starts, c < m.mesh.size)
    (ha : (fresh m.mesh.size).seed m starts = .ok a)
    (hb : (fresh m'.mesh.size).seed m' starts = .ok b) : Scaled κ a b := by
  obtain ⟨a1, a2, h, hw, ⟨c, -, -, hseed⟩ | ⟨hstuck, hseed, -⟩⟩ := seed_cases hu hn hlt
  · rw [hseed] at ha
    cases ha
  obtain ⟨b1, b2, h', hw', ⟨c, -, -, hseed'⟩ | ⟨hstuck', hseed', -⟩⟩ :=
    seed_cases hu' hn (by rwa [hs.size])
  · rw [hseed'] at hb
    cases hb
  rw [hseed] at ha
  rw [hseed'] at hb
  cases ha
  cases hb
  refine (h.scaled h' hs.size hs.pos).widens hs hu hu' h.coherent h.front h'.front hw hw' hstuck
    hstuck' fun d => ?_
  simp only [List.mem_flatMap]
  exact exists_congr fun c => and_congr_right fun _ => hs.mem_around c d

variable (hl : ∀ r : Run EReal, r.LinesFinite m) (hl' : ∀ r : Run EReal, r.LinesFinite m')
include hl hl'

theorem Scaled.advance (bound : ℤ) (h : Scaled κ a b) (ha : a.Linked m starts)
    (hb : b.Linked m' starts) : Mirrored κ (advance m bound a) (advance m' bound b) := by
  have hit : b.iterations = a.iterations := h.iterations
  induction a using advance.induct m bound generalizing b with
  | case1 a he =>
    have he' := ha.coherent.isEmpty_considered_eq hb.coherent h.stateOf
    rw [Run.advance, Run.advance, if_pos he, if_pos (he'.trans he)]
    exact ⟨h, congrArg Except.ok (h.solution_eq ha.coherent.sized (hs.size ▸ hb.coherent.sized))⟩
  | case2 a he hbound =>
    have he' := ha.coherent.isEmpty_considered_eq hb.coherent h.stateOf
    rw [Run.advance, if_neg he, if_pos hbound, Run.advance, if_neg (by rwa [he']),
      if_pos (by rwa [hit]), ha.coherent.size_considered_eq hb.coherent h.stateOf]
    exact ⟨h, rfl⟩
  | case3 a he hbound e hstep =>
    obtain ⟨a1, hstep', -⟩ := ha.exists_step hu hl (by simpa using he)
    rw [hstep] at hstep'
    cases hstep'
  | case4 a he hbound a1 hstep ih =>
    have he : a.considered.isEmpty = false := by simpa using he
    have he' := (ha.coherent.isEmpty_considered_eq hb.coherent h.stateOf).trans he
    obtain ⟨b1, hstep', hb1⟩ := hb.exists_step hu' hl' he'
    have h1 := h.step hs hu hu' ha.toSound hb.toSound hstep hstep'
    rw [advance_of_ok he (by omega) hstep, advance_of_ok he' (by omega) hstep']
    exact ih h1 (ha.of_step hu hstep) hb1 h1.iterations

/-- Solves in similar media from the same start cells mirror each other. -/
theorem mirrored_solve (bound : ℤ) (hn : starts.Nodup) (hlt : ∀ c ∈ starts, c < m.mesh.size)
    (ha : a.Sized m.mesh.size) (hb : b.Sized m'.mesh.size) :
    Mirrored κ (solve m bound starts a) (solve m' bound starts b) := by
  obtain ⟨a1, hseed, ha1⟩ := exists_linked_seed hu hl hn hlt
  obtain ⟨b1, hseed', hb1⟩ := exists_linked_seed hu' hl' hn (by rwa [hs.size])
  have h := scaled_seed hs hu hu' hn hlt hseed hseed'
  unfold solve
  rw [ha.reset, hb.reset, hseed, hseed']
  exact h.advance hs hu hu' hl hl' bound ha1 hb1

end Similar

end Run

end Eikonal
