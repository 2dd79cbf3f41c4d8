import Eikonal.Proofs.Scalar.Binary64
import Eikonal.Proofs.Solver.Sound

/-! The life cycle of a cell goes one way: far, considered, accepted. From one run that a solve
shows to any later one no cell goes back, accepted values stay, considered ones do not rise, and the
order of acceptance is continued. A step relaxes every cell at most once, so the relaxations between
two runs are the keys that fell on the way. -/

namespace Eikonal

variable {α : Type} [Scalar α]

/-- The stages of a cell in their order. -/
def CellState.code : CellState → Nat
  | far => 0
  | considered => 1
  | accepted => 2

namespace Run

/-- Whether a cell is considered in both runs and its key is lower in the run `b`. -/
def keyFalls (a b : Run α) (c : Nat) : Bool :=
  match a.considered.key? c, b.considered.key? c with
  | some old, some new => Scalar.lt new old
  | _, _ => false

/-- How often the key of a considered cell falls along some runs, from each of them to the next. -/
def keyFallsAlong : List (Run α) → Nat
  | a :: b :: rest => (List.range a.state.size).countP (a.keyFalls b) + keyFallsAlong (b :: rest)
  | _ => 0

/-- The run `b` is the run `a` or comes after it. -/
structure Later (a b : Run α) : Prop where
  state : ∀ c, (a.stateOf c).code ≤ (b.stateOf c).code
  frozen : ∀ c, a.stateOf c = .accepted → b.valueOf c = a.valueOf c
  falling : ∀ c, a.stateOf c = .considered → Scalar.le (b.valueOf c) (a.valueOf c)
  order : a.order.toList <+: b.order.toList

variable {m : Medium α} {n k : Nat} {a b r r1 r2 r3 : Run α} {e : Entry Nat α} {c : Nat}
  {cs : List Nat} {p : Nat → Prop} {f : Nat → α}

theorem keyFallsAlong_pair (a b : Run α) :
    keyFallsAlong [a, b] = (List.range a.state.size).countP (a.keyFalls b) := rfl

theorem Later.of_accepted (h : Later a b) (hc : a.stateOf c = .accepted) :
    b.stateOf c = .accepted := by
  have hcode := h.state c
  rw [hc] at hcode
  cases hs : b.stateOf c <;> simp [hs, CellState.code] at hcode ⊢

/-- A cell that is considered stays so or is accepted. -/
theorem Later.of_considered (h : Later a b) (hc : a.stateOf c = .considered) :
    b.stateOf c = .considered ∨ b.stateOf c = .accepted := by
  have hcode := h.state c
  rw [hc] at hcode
  cases hs : b.stateOf c <;> simp [hs, CellState.code] at hcode ⊢

variable [OrderedScalar α]

theorem Later.trans {d : Run α} (h1 : Later a b) (h2 : Later b d) : Later a d := by
  refine ⟨fun c => (h1.state c).trans (h2.state c), fun c hc => ?_, fun c hc => ?_,
    h1.order.trans h2.order⟩
  · rw [h2.frozen c (h1.of_accepted hc), h1.frozen c hc]
  · rcases h1.of_considered hc with hs | hs
    · exact OrderedScalar.le_trans (h2.falling c hs) (h1.falling c hc)
    · rw [h2.frozen c hs]
      exact h1.falling c hc

/-! ### One step -/

theorem Accepts.later (h : Accepts m r e r1) (hr : r.Coherent m.mesh.size) : Later r r1 := by
  refine ⟨fun c => ?_, fun c _ => h.valueOf_eq c, fun c hc => ?_, ?_⟩
  · rw [h.settled.stateOf]
    split
    · cases r.stateOf c <;> decide
    · exact Nat.le_refl _
  · rw [h.valueOf_eq]
    exact Scalar.le_refl (hr.isNaN_valueOf hc)
  · rw [h.settled.order, Array.toList_push]
    exact List.prefix_append _ _

/-- New values for considered cells come later if none of them rises. -/
theorem Reassigned.later (h : Reassigned n r p f k r1) (hr : r.Coherent n)
    (hp : ∀ d, p d → r.stateOf d ≠ .accepted)
    (hf : ∀ d, p d → r.stateOf d = .considered → Scalar.le (f d) (r.valueOf d)) :
    Later r r1 := by
  refine ⟨fun c => ?_, fun c hc => ?_, fun c hc => ?_, by rw [h.order]⟩
  · by_cases hpc : p c
    · have hne := hp c hpc
      rw [(h.inside c hpc).1]
      cases hs : r.stateOf c <;> simp [CellState.code, hs] at hne ⊢
    · rw [(h.outside c hpc).1]
  · rw [(h.outside c fun hpc => hp c hpc hc).2]
  · by_cases hpc : p c
    · rw [(h.inside c hpc).2]
      exact hf c hpc hc
    · rw [(h.outside c hpc).2]
      exact Scalar.le_refl (hr.isNaN_valueOf hc)

theorem Widens.later (h : Widens m r1 cs r2) (hr : r1.Coherent m.mesh.size) : Later r1 r2 := by
  refine Reassigned.later h hr (fun d hd => ?_) fun d hd hc => ?_
  · rw [hd.2]
    decide
  · rw [hd.2] at hc
    cases hc

theorem Relaxes.later (h : Relaxes m r2 r3) (hr : r2.Coherent m.mesh.size) : Later r2 r3 := by
  refine Reassigned.later h hr (fun d hd => ?_) fun d hd _ => ?_
  · rw [hd]
    decide
  · exact Scalar.lower_le_left (hr.isNaN_valueOf hd)

/-- The keys that a step lowers are those of the considered cells that fall when they are relaxed:
the accepted cell loses its key, and a new cell has none before. -/
theorem keyFalls_eq (hr : r.Coherent m.mesh.size) (h : Accepts m r e r1) (hw : Widens m r1 cs r2)
    (hall : Relaxes m r2 r3) (c : Nat) :
    r.keyFalls r3 c = (decide (r2.stateOf c = .considered) && r2.falls m c) := by
  have hstate := hall.stateOf_eq c
  unfold keyFalls
  rw [hr.key c, hall.coherent.key c, hstate]
  by_cases hc : r2.stateOf c = .considered
  · have hvalue := (hall.inside c hc).2
    rcases hw.considered hc with ⟨hc1, hv⟩ | ⟨hc1, -, hv⟩
    · have hc0 : r.stateOf c = .considered := (h.stateOf_ne (by rw [hc1]; decide)).2 ▸ hc1
      rw [h.valueOf_eq] at hv
      simp only [hc, hc0, if_true, decide_true, Bool.true_and]
      rw [← hv, hvalue]
      exact Scalar.lt_lower_left _ _
    · have hc0 : r.stateOf c = .far := (h.stateOf_ne (by rw [hc1]; decide)).2 ▸ hc1
      have hfalls : r2.falls m c = false := by
        rw [falls, hw.arrival_eq h.settled.coherent, hv]
        exact Scalar.lt_irrefl _
      simp [hc0, hfalls]
  · simp [hc]

/-- What one step changes: no cell goes on by more than one stage, and the relaxations are the keys
that fall. -/
theorem Sound.later_of_step (hr : r.Sound m) (hu : m.mesh.Undirected) (hs : r.step m = .ok r3) :
    Later r r3 ∧ (∀ c, r.stateOf c = .far → r3.stateOf c ≠ .accepted) ∧
      r3.relaxations = r.relaxations + keyFallsAlong [r, r3] := by
  obtain ⟨e, r1, r2, h, hw, -, hready, hall, -⟩ := hr.parts_of_step hu hs
  have hlater := ((h.later hr.coherent).trans (hw.later h.settled.coherent)).trans
    (hall.later hready.coherent)
  refine ⟨hlater, fun c hc => ?_, ?_⟩
  · have hne : c ≠ e.cell := by
      rintro rfl
      rw [h.considered] at hc
      cases hc
    have hc1 : r1.stateOf c = .far := by
      rw [h.settled.stateOf, if_neg hne, hc]
    rw [hall.stateOf_eq]
    by_cases hin : c ∈ (m.mesh.around e.cell).takeWhile (fun c => !r1.isStuck m c)
    · rw [(hw.inside c ⟨hin, hc1⟩).1]
      decide
    · rw [(hw.outside c fun hp => hin hp.1).1, hc1]
      decide
  · have hcount : ((Finset.range m.mesh.size).filter fun c =>
        r2.stateOf c = .considered ∧ r2.falls m c).card = keyFallsAlong [r, r3] := by
      have hfilter : (List.range m.mesh.size).filter (r.keyFalls r3) =
          (List.range m.mesh.size).filter fun c =>
            decide (r2.stateOf c = .considered ∧ r2.falls m c) := by
        refine List.filter_congr fun c _ => ?_
        rw [keyFalls_eq hr.coherent h hw hall, Bool.decide_and, Bool.decide_eq_true]
      rw [keyFallsAlong_pair, hr.coherent.sized.state, List.countP_eq_length_filter, hfilter]
      rfl
    rw [hall.relaxations, hw.relaxations, h.settled.relaxations, hcount]
    rfl

/-! ### A run of steps -/

theorem later_of_chain (hu : m.mesh.Undirected) {between : List (Run α)}
    (h : (a :: (between ++ [b])).IsChain fun a b => a.Sound m ∧ a.step m = .ok b) :
    Later a b ∧
      (∀ c, a.stateOf c = .far → b.stateOf c = .accepted →
        ∃ d ∈ between, d.stateOf c = .considered) ∧
      b.relaxations = a.relaxations + keyFallsAlong (a :: (between ++ [b])) := by
  induction between generalizing a with
  | nil =>
    obtain ⟨⟨ha, hstep⟩, -⟩ := List.isChain_cons_cons.mp h
    obtain ⟨hlater, hnear, hcount⟩ := ha.later_of_step hu hstep
    exact ⟨hlater, fun c hc hcb => absurd hcb (hnear c hc), hcount⟩
  | cons d between ih =>
    obtain ⟨⟨ha, hstep⟩, hrest⟩ := List.isChain_cons_cons.mp h
    obtain ⟨hlater, hnear, hcount⟩ := ha.later_of_step hu hstep
    obtain ⟨hlater', hpass, hcount'⟩ := ih hrest
    refine ⟨hlater.trans hlater', fun c hc hcb => ?_, ?_⟩
    · cases hcd : d.stateOf c with
      | far =>
        obtain ⟨x, hx, hxc⟩ := hpass c hcd hcb
        exact ⟨x, List.mem_cons_of_mem _ hx, hxc⟩
      | considered => exact ⟨d, List.mem_cons_self, hcd⟩
      | accepted => exact absurd hcd (hnear c hc)
    · rw [hcount', hcount, Nat.add_assoc]
      rfl

end Run

namespace Solver

variable [OrderedScalar α] {memory : Memory} {g : CellGrid α} {mesh : Mesh α} {s : Solver α}
  {metric : NdArray α} {starts : Json} {field : MetricField α} {cells : List Nat}

/-- Of the run after the start phase and the runs after each step, take any two and those between
them. The second comes later than the first: no cell goes back, accepted values are the same,
considered ones are not larger, and the order of acceptance is continued. A cell that is far in the
first and accepted in the second was considered between them, and there are as many relaxations more
as keys of considered cells have fallen. -/
theorem one_way_life_cycle (hg : Mesh.ofGrid memory g = .ok mesh) (hs : Reachable mesh s)
    (hin : s.checkInput metric starts = .ok (field, cells)) {seeded a b : Run α}
    {between : List (Run α)} (hseed : s.run.reset.seed ⟨mesh, field⟩ cells = .ok seeded)
    (h : a :: (between ++ [b]) <:+: seeded :: s.trace metric starts) :
    Run.Later a b ∧
      (∀ c, a.stateOf c = .far → b.stateOf c = .accepted →
        ∃ r ∈ between, r.stateOf c = .considered) ∧
      b.relaxations = a.relaxations + Run.keyFallsAlong (a :: (between ++ [b])) := by
  obtain ⟨rfl, hsized⟩ := hs.sized
  obtain ⟨hasc, hlt⟩ := starts_of_checkInput hin
  have hu := Mesh.undirected_of_ofGrid hg
  have hsound : seeded.Sound ⟨s.mesh, field⟩ := by
    rw [hsized.reset] at hseed
    exact Run.sound_of_seed (m := ⟨s.mesh, field⟩) hu (hasc.imp fun h => Nat.ne_of_lt h) hlt hseed
  rw [trace_eq hin, Run.trace, hseed] at h
  have hstep : ∀ a b : Run α, a.Sound ⟨s.mesh, field⟩ → a.step ⟨s.mesh, field⟩ = .ok b →
      b.Sound ⟨s.mesh, field⟩ := fun a b ha hab => ha.of_step hu hab
  obtain ⟨earlier, later, hall⟩ := h
  have hchain : (earlier ++ (a :: (between ++ [b])) ++ later).IsChain fun a b =>
      a.Sound ⟨s.mesh, field⟩ ∧ a.step ⟨s.mesh, field⟩ = .ok b := by
    rw [hall]
    exact Run.isChain_passed hstep hsound
  exact Run.later_of_chain hu hchain.left_of_append.right_of_append

/-- Between the start and the end of a run one more cell is accepted. -/
theorem one_way_life_cycle_sample : ∃ seeded first last,
    (new pairsMesh none).run.reset.seed ⟨pairsMesh, pairsField⟩ [0, 2] = .ok seeded ∧
      (new pairsMesh none).trace pairsMetric pairsStarts = [first, last] ∧
        Run.Later seeded last := by
  have hlength : ((new pairsMesh none).trace pairsMetric pairsStarts).length = 2 := by
    decide +kernel
  obtain ⟨first, last, htrace⟩ := List.length_eq_two.mp hlength
  cases hseed : (new pairsMesh none).run.reset.seed ⟨pairsMesh, pairsField⟩ [0, 2] with
  | error e =>
    rw [trace_eq (checkInput_pairs none), Run.trace,
      show (new pairsMesh none).run.reset.seed ⟨(new pairsMesh none).mesh, pairsField⟩ [0, 2] =
        .error e from hseed] at htrace
    cases htrace
  | ok seeded =>
    refine ⟨seeded, first, last, rfl, htrace, ?_⟩
    have hall : seeded :: ([first] ++ [last]) <:+:
        seeded :: (new pairsMesh none).trace pairsMetric pairsStarts := by
      rw [htrace]
      exact List.infix_rfl
    exact (one_way_life_cycle ofGrid_pairsGrid (.new none) (checkInput_pairs none) hseed hall).1

end Solver

end Eikonal
