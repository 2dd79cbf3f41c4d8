import Eikonal.Proofs.Solver.Complete

/-! A bound on the acceptances only truncates a run. The bound is read before a cell is taken from
the considered ones, so a bounded run passes the same runs as one that comes to its end, stops at
the first of them where as many cells are accepted as the bound allows while others are still
considered, and leaves that run as it was. -/

namespace Eikonal

variable {α : Type} [Scalar α]

namespace Run

/-- The cell that was accepted last, with its value. -/
def lastAccepted? (r : Run α) : Option (Nat × α) := r.order.back?.map fun c => (c, r.valueOf c)

variable [OrderedScalar α] {m : Medium α} {r r' : Run α} {ample : Int}

/-- A loop with a bound `ample` that comes to its end, and the same loop with another bound. -/
theorem Sound.advance_truncates (hr : r.Sound m) (hu : m.mesh.Undirected)
    (hend : advance m ample r = .ok r') (bound : Int) :
    passed m bound r = (passed m ample r).take (bound - r.iterations).toNat ∧
      ((passed m ample r).length ≤ (bound - r.iterations).toNat → advance m bound r = .ok r') ∧
      ((bound - r.iterations).toNat < (passed m ample r).length →
        ∃ x, (r :: passed m ample r)[(bound - r.iterations).toNat]? = some x ∧
          advance m bound r = .error ⟨.bound bound x.considered.size, x⟩) ∧
      r'.iterations = r.iterations + (passed m ample r).length := by
  induction r using advance.induct m ample with
  | case1 r he =>
    rw [advance, if_pos he] at hend
    obtain rfl := Except.ok.inj hend
    have hnone : ∀ b : Int, passed m b r = [] := fun b => by rw [passed, if_pos (by simp [he])]
    rw [hnone, hnone]
    refine ⟨by simp, fun _ => by rw [advance, if_pos he], fun h => ?_, by simp⟩
    simp at h
  | case2 r he hb =>
    rw [advance, if_neg he, if_pos hb] at hend
    cases hend
  | case3 r he hb e hs =>
    rw [advance_of_error (by simpa using he) (by omega) hs] at hend
    cases hend
  | case4 r he hb r1 hs ih =>
    have he : r.considered.isEmpty = false := by simpa using he
    rw [advance_of_ok he (by omega) hs] at hend
    have hample : passed m ample r = r1 :: passed m ample r1 := passed_of_ok he (by omega) hs
    have hit := hr.iterations_of_step hu hs
    obtain ⟨hpassed, hok, hstop, hcount⟩ := ih (hr.of_step hu hs) hend
    have hcount' : r'.iterations = r.iterations + (passed m ample r).length := by
      rw [hcount, hit, hample, List.length_cons]
      omega
    rw [hample] at hcount' ⊢
    by_cases hbound : bound ≤ r.iterations
    · have hzero : (bound - r.iterations).toNat = 0 := by omega
      have hnone : passed m bound r = [] := by rw [passed, if_pos (by simp [hbound])]
      rw [hzero, hnone]
      refine ⟨rfl, fun h => ?_, fun _ => ⟨r, rfl, ?_⟩, hcount'⟩
      · simp at h
      · rw [advance, if_neg (by simp [he]), if_pos hbound]
    · have hsucc : (bound - r.iterations).toNat = (bound - r1.iterations).toNat + 1 := by omega
      have hnext : passed m bound r = r1 :: passed m bound r1 := passed_of_ok he (by omega) hs
      rw [hsucc, hnext, advance_of_ok he (by omega) hs, hpassed]
      refine ⟨rfl, fun h => ?_, fun h => ?_, hcount'⟩
      · exact hok (Nat.le_of_succ_le_succ h)
      · exact hstop (Nat.lt_of_succ_lt_succ h)

variable {starts : List Nat}

/-- A solve with a bound `ample` that comes to its end, and the same solve with another bound. -/
theorem solve_truncates (hu : m.mesh.Undirected) (hn : starts.Nodup)
    (hlt : ∀ c ∈ starts, c < m.mesh.size) (hr : r.Sized m.mesh.size) (hr' : r'.Sized m.mesh.size)
    {last : Run α} (hend : r.solve m ample starts = .ok last) (bound : Int) :
    ∃ seeded, (fresh m.mesh.size).seed m starts = .ok seeded ∧
      r'.trace m bound starts = (r.trace m ample starts).take bound.toNat ∧
      ((r.trace m ample starts).length ≤ bound.toNat → r'.solve m bound starts = .ok last) ∧
      (bound.toNat < (r.trace m ample starts).length →
        ∃ x, (seeded :: r.trace m ample starts)[bound.toNat]? = some x ∧
          r'.solve m bound starts = .error ⟨.bound bound x.considered.size, x⟩) ∧
      last.iterations = (r.trace m ample starts).length := by
  unfold solve trace at *
  rw [hr.reset] at hend
  rw [hr.reset, hr'.reset]
  cases hs : (fresh m.mesh.size).seed m starts with
  | error e =>
    rw [hs] at hend
    cases hend
  | ok seeded =>
    rw [hs] at hend
    have hzero := iterations_of_seed hu hn hlt hs
    have h := (sound_of_seed hu hn hlt hs).advance_truncates hu hend bound
    rw [hzero, Int.natCast_zero, Int.sub_zero, Nat.zero_add] at h
    exact ⟨seeded, rfl, h⟩

/-- Every step ends with an acceptance. -/
theorem isSome_lastAccepted? (hu : m.mesh.Undirected) (hn : starts.Nodup)
    (hlt : ∀ c ∈ starts, c < m.mesh.size) (hr : r.Sized m.mesh.size) {bound : Int}
    (hr' : r' ∈ trace m bound starts r) : r'.lastAccepted?.isSome := by
  unfold trace at hr'
  rw [hr.reset] at hr'
  cases hs : (fresh m.mesh.size).seed m starts with
  | error e =>
    rw [hs] at hr'
    cases hr'
  | ok r1 =>
    rw [hs] at hr'
    obtain ⟨r0, h0, hstep⟩ := exists_step_of_mem_passed (P := (Sound m))
      (fun a b ha hb => ha.of_step hu hb) (sound_of_seed hu hn hlt hs) hr'
    obtain ⟨c, hc⟩ := h0.exists_push_of_step hu hstep
    simp [lastAccepted?, hc]

end Run

namespace Solver

/-- The cells that the main loop of a solve accepts, with their values, in their order. -/
def acceptances (s : Solver α) (metric : NdArray α) (starts : Json) : List (Nat × α) :=
  (s.trace metric starts).filterMap Run.lastAccepted?

variable [LawfulScalar α] {memory : Memory} {g : CellGrid α} {mesh : Mesh α} {s t : Solver α}
  {metric : NdArray α} {starts : Json} {field : MetricField α} {cells : List Nat}

omit [LawfulScalar α] in
/-- Solves for the same mesh and input leave solvers that differ in their bounds and runs alone. -/
theorem solve_eq_of_mesh (hmesh : s.mesh = t.mesh)
    (hin : t.checkInput metric starts = .ok (field, cells)) :
    s.solve metric starts =
      ({ (t.solve metric starts).1 with
          bound? := s.bound?
          run := Run.left (s.run.solve ⟨t.mesh, field⟩ s.bound cells) },
        outcome (s.run.solve ⟨t.mesh, field⟩ s.bound cells)) := by
  have hin' : s.checkInput metric starts = .ok (field, cells) := by
    rw [← hin, checkInput, checkInput, size, size, hmesh]
  obtain ⟨h1, h2⟩ := solve_eq hin'
  rw [hmesh] at h1 h2
  refine Prod.ext (h1.trans ?_) h2
  rw [(solve_eq hin).1, begin, begin, hmesh]

omit [LawfulScalar α] in
theorem trace_eq_of_mesh (hmesh : s.mesh = t.mesh)
    (hin : t.checkInput metric starts = .ok (field, cells)) :
    s.trace metric starts = s.run.trace ⟨t.mesh, field⟩ s.bound cells := by
  rw [← hmesh]
  refine trace_eq ?_
  rw [← hin, checkInput, checkInput, size, size, hmesh]

/-- With finite line updates a solve with a bound is the solve without one, cut off: it is refused
if and only if more cells are accepted without the bound than it allows. It takes the same steps
until then, and leaves the run that the other solve has after as many acceptances as are allowed;
if it is not refused it leaves the same and returns the same. The solve without a bound is never
refused. -/
theorem bound_truncates (hg : Mesh.ofGrid memory g = .ok mesh) (hs : Reachable mesh s)
    (ht : Reachable mesh t) {k : Int} (hbs : s.bound? = some k) (hbt : t.bound? = none)
    (hin : t.checkInput metric starts = .ok (field, cells))
    (hl : (t.solve metric starts).1.run.LinesFinite ⟨mesh, field⟩) :
    let full := (t.solve metric starts).1
    let count := full.run.iterations
    let allowed := (max k 0).toNat
    (t.solve metric starts).2 = .ok full.run.solution ∧
      (t.acceptances metric starts).length = count ∧
      ((∃ left, (s.solve metric starts).2 = .error (.stopped (.bound k left))) ↔ allowed < count) ∧
      s.acceptances metric starts = (t.acceptances metric starts).take (min count allowed) ∧
      ∃ seeded, t.run.reset.seed ⟨mesh, field⟩ cells = .ok seeded ∧
        (allowed < count → ∃ r, (seeded :: t.trace metric starts)[allowed]? = some r ∧
          s.solve metric starts = ({ full with bound? := some k, run := r },
            .error (.stopped (.bound k r.considered.size)))) ∧
        (count ≤ allowed →
          s.solve metric starts = ({ full with bound? := some k }, .ok full.run.solution)) := by
  intro full count allowed
  obtain ⟨rfl, hsized⟩ := ht.sized
  obtain ⟨hmesh, hsized'⟩ := hs.sized
  obtain ⟨hasc, hlt⟩ := starts_of_checkInput hin
  have hu := Mesh.undirected_of_ofGrid hg
  have hn : cells.Nodup := hasc.imp fun h => Nat.ne_of_lt h
  have hbound := bound_of_none hbt
  have hseen : ∀ r ∈ t.trace metric starts, r.lastAccepted?.isSome := fun r hr => by
    rw [trace_eq hin] at hr
    exact Run.isSome_lastAccepted? (m := ⟨t.mesh, field⟩) hu hn hlt hsized hr
  obtain ⟨last, hlast, -⟩ : ∃ last, t.run.solve ⟨t.mesh, field⟩ t.bound cells = .ok last ∧ _ := by
    rw [run_solve hin, hbound] at hl
    rw [hbound]
    exact Run.exists_complete_solve (m := ⟨t.mesh, field⟩) hu hn hlt hsized hl
  have hbound' : s.bound = k := by
    unfold bound
    rw [hbs]
    rfl
  have hfull : full.run = last ∧ (t.solve metric starts).2 = .ok last.solution := by
    rw [run_solve hin, (solve_eq hin).2, hlast]
    exact ⟨rfl, rfl⟩
  obtain ⟨seeded, hseed, htrace, hend, hstop, hcount⟩ :=
    Run.solve_truncates (m := ⟨t.mesh, field⟩) hu hn hlt hsized hsized' hlast k
  have hsolve := solve_eq_of_mesh hmesh hin
  rw [← trace_eq hin] at htrace hend hstop hcount
  rw [hbs, hbound'] at hsolve
  rw [← hfull.1] at hend hcount
  have hcount : count = (t.trace metric starts).length := hcount
  have hallowed : allowed = k.toNat := by omega
  rw [hallowed, hcount]
  refine ⟨hfull.1 ▸ hfull.2, (filterMap_take hseen 0).2, ⟨fun ⟨left, hleft⟩ => ?_, fun h => ?_⟩, ?_,
    seeded, hsized.reset ▸ hseed, fun h => ?_, fun h => ?_⟩
  · by_contra hn
    rw [hsolve, hend (by omega)] at hleft
    cases hleft
  · obtain ⟨x, -, hx⟩ := hstop h
    exact ⟨_, by rw [hsolve, hx]; rfl⟩
  · rw [acceptances, trace_eq_of_mesh hmesh hin, hbound', htrace, (filterMap_take hseen _).1,
      List.take_eq_take_min, (filterMap_take hseen 0).2, Nat.min_comm]
    rfl
  · obtain ⟨x, hx, hx'⟩ := hstop h
    exact ⟨x, hx, by rw [hsolve, hx']; rfl⟩
  · rw [hsolve, hend h]
    rfl

/-- Two cells have to be accepted, and one may be. -/
theorem bound_truncates_sample :
    (∃ left, ((new pairsMesh (some 1)).solve pairsMetric pairsStarts).2 =
        .error (.stopped (.bound 1 left))) ∧
      (new pairsMesh (some 1)).acceptances pairsMetric pairsStarts =
        ((new pairsMesh none).acceptances pairsMetric pairsStarts).take 1 := by
  have hcount : ((new pairsMesh none).solve pairsMetric pairsStarts).1.run.iterations = 2 := by
    decide +kernel
  obtain ⟨-, -, hraise, haccept, -⟩ := bound_truncates (k := 1) ofGrid_pairsGrid
    (.new (some 1)) (.new none) rfl rfl (checkInput_pairs none) linesFinite_pairs
  rw [hcount] at hraise haccept
  exact ⟨hraise.mpr (by decide), haccept⟩

end Solver

end Eikonal
