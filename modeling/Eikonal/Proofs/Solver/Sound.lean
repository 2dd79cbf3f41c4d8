import Eikonal.Proofs.Solver.Coherent
import Mathlib.Data.List.TakeWhile

/-! What holds between the steps of a run: the run is coherent, its front exact, no far cell has an
accepted neighbour, and no considered cell has more to gain from the front as it is. A step accepts
the considered entry that comes first. This changes what the front gives to the neighbours of the
accepted cell and to no other cell, so relaxing these neighbours is enough, and relaxing further
considered cells changes nothing. -/

namespace Eikonal.Run

variable {α : Type} [Scalar α]

/-- A run whose far cells have no accepted neighbour and whose considered cells all get a value from
the front. -/
structure Ready (m : Medium α) (r : Run α) : Prop where
  coherent : r.Coherent m.mesh.size
  front : r.FrontExact m.mesh
  aloof : ∀ c, r.stateOf c = .far → ∀ d ∈ m.mesh.around c, r.isAccepted d = false
  reached : ∀ c, r.stateOf c = .considered → ∃ v, r.arrival m c = some v

/-- A run between two steps: no considered cell has more to gain. -/
structure Sound (m : Medium α) (r : Run α) : Prop extends Ready m r where
  steady : ∀ c v, r.stateOf c = .considered → r.arrival m c = some v →
    Scalar.le (r.valueOf c) v

/-- The entry `e` comes first among the considered ones of `r`, and `r1` is `r` with it accepted. -/
structure Accepts (m : Medium α) (r : Run α) (e : Entry Nat α) (r1 : Run α) : Prop where
  considered : r.stateOf e.cell = .considered
  value : r.valueOf e.cell = e.value
  first : ∀ d, r.stateOf d = .considered → Entry.before ⟨r.valueOf d, d⟩ e = false
  settled : Settled m.mesh.size r e.cell e.value r1
  front : r1.FrontExact m.mesh
  iterations : r1.iterations = r.iterations + 1
  taken : ∃ h', r.considered.pop = .ok (e, h') ∧ r1 = r.accept m e h'

/-- The run `r2` is `r1` with the far cells among `cs` considered, up to the first that is stuck. -/
def Widens (m : Medium α) (r1 : Run α) (cs : List Nat) (r2 : Run α) : Prop :=
  Reassigned m.mesh.size r1
    (fun d => d ∈ cs.takeWhile (fun c => !r1.isStuck m c) ∧ r1.stateOf d = .far)
    (fun d => (r1.arrival m d).getD Scalar.inf) 0 r2

/-- The run `r3` is `r2` with all considered cells relaxed. -/
def Relaxes (m : Medium α) (r2 r3 : Run α) : Prop :=
  Reassigned m.mesh.size r2 (r2.stateOf · = .considered) (r2.relaxed m)
    ((Finset.range m.mesh.size).filter fun d => r2.stateOf d = .considered ∧ r2.falls m d).card r3

variable {m : Medium α} {r r1 r2 r3 : Run α} {e : Entry Nat α} {c d : Nat} {v : α} {cs : List Nat}

/-- A far cell before the first that is stuck gets a value from the front. -/
theorem exists_arrival (hc : c ∈ cs.takeWhile fun c => !r.isStuck m c) (hfar : r.stateOf c = .far) :
    ∃ v, r.arrival m c = some v := by
  have hfree : r.isStuck m c = false := by
    simpa using List.mem_takeWhile_imp hc
  simp only [isStuck, hfar, decide_true, Bool.true_and] at hfree
  exact Option.isSome_iff_exists.mp (by simpa using hfree)

namespace Accepts

theorem isAccepted_iff (h : Accepts m r e r1) : r1.isAccepted d ↔ e.cell = d ∨ r.isAccepted d := by
  rw [h.settled.isAccepted, Bool.or_eq_true, beq_iff_eq]

theorem valueOf_eq (h : Accepts m r e r1) (d : Nat) : r1.valueOf d = r.valueOf d := by
  rw [h.settled.valueOf]
  split
  · rename_i hd
    rw [hd, h.value]
  · rfl

theorem stateOf_ne (h : Accepts m r e r1) (hd : r1.stateOf d ≠ .accepted) :
    d ≠ e.cell ∧ r1.stateOf d = r.stateOf d := by
  have hs := h.settled.stateOf d
  by_cases hde : d = e.cell
  · rw [if_pos hde] at hs
    exact absurd hs hd
  · rw [if_neg hde] at hs
    exact ⟨hde, hs⟩

/-- Next to a cell that is not accepted, the front gains the accepted cell and nothing else. -/
theorem contains_front (h : Accepts m r e r1) (hr : r.Ready m) (hu : m.mesh.Undirected)
    (hc : r1.stateOf c ≠ .accepted) (hd : d ∈ m.mesh.around c) :
    r1.front.contains d = (e.cell == d || r.front.contains d) := by
  have hc0 : r.stateOf c ≠ .accepted := by rwa [(h.stateOf_ne hc).2] at hc
  rw [h.front.contains_of_around hu (h.settled.coherent.not_accepted hc) hd, h.settled.isAccepted,
    hr.front.contains_of_around hu (hr.coherent.not_accepted hc0) hd]

theorem valueOf_front (h : Accepts m r e r1) :
    ∀ d ∈ m.around c, r.front.contains d →
      r1.solution.getD d Scalar.inf = r.solution.getD d Scalar.inf :=
  fun d _ _ => h.valueOf_eq d

/-- Cells that are no neighbours of the accepted cell get the same value as before. -/
theorem arrival_of_not_around (h : Accepts m r e r1) (hr : r.Ready m) (hu : m.mesh.Undirected)
    (hc : r1.stateOf c ≠ .accepted) (hce : c ∉ m.mesh.around e.cell) :
    r1.arrival m c = r.arrival m c := by
  refine Medium.tentative?_congr (fun d hd => ?_) h.valueOf_front
  have hde : (e.cell == d) = false := by
    rw [beq_eq_false_iff_ne]
    rintro rfl
    exact hce (hu.symm hd)
  rw [h.contains_front hr hu hc hd, hde, Bool.false_or]

/-- Far cells have no accepted neighbour but the cell just accepted. -/
theorem eq_of_far (h : Accepts m r e r1) (hr : r.Ready m) (hc : r1.stateOf c = .far)
    (hd : d ∈ m.mesh.around c) (ha : r1.isAccepted d) : d = e.cell := by
  rcases h.isAccepted_iff.mp ha with rfl | ha
  · rfl
  · have hc1 : r1.stateOf c ≠ .accepted := by rw [hc]; decide
    rw [hr.aloof c ((h.stateOf_ne hc1).2 ▸ hc) d hd] at ha
    cases ha

end Accepts

/-- The considered cells of a widened run are those from before and new ones, which have the value
that the front gives them. -/
theorem Widens.considered (h : Widens m r1 cs r2) (hc : r2.stateOf c = .considered) :
    (r1.stateOf c = .considered ∧ r2.valueOf c = r1.valueOf c) ∨
      (r1.stateOf c = .far ∧ c ∈ cs ∧ r1.arrival m c = some (r2.valueOf c)) := by
  by_cases hin : c ∈ cs.takeWhile (fun c => !r1.isStuck m c) ∧ r1.stateOf c = .far
  · obtain ⟨v, hv⟩ := exists_arrival hin.1 hin.2
    refine Or.inr ⟨hin.2, (List.takeWhile_prefix _).subset hin.1, ?_⟩
    rw [(h.inside c hin).2, hv]
    rfl
  · obtain ⟨hs, hv⟩ := h.outside c hin
    exact Or.inl ⟨hs ▸ hc, hv⟩

theorem Relaxes.stateOf_eq (h : Relaxes m r2 r3) (c : Nat) : r3.stateOf c = r2.stateOf c := by
  by_cases hc : r2.stateOf c = .considered
  · rw [hc]
    exact (h.inside c hc).1
  · exact (h.outside c hc).1

/-- Where no cell is stuck, all far cells that are listed become considered. -/
theorem Widens.reassigned (h : Widens m r1 cs r2) (hstuck : cs.find? (r1.isStuck m) = none) :
    Reassigned m.mesh.size r1 (fun d => d ∈ cs ∧ r1.stateOf d = .far)
      (fun d => (r1.arrival m d).getD Scalar.inf) 0 r2 := by
  have hfree : ∀ c ∈ cs, r1.isStuck m c = false := by
    simpa [List.find?_eq_none] using hstuck
  have htake : cs.takeWhile (fun c => !r1.isStuck m c) = cs := by
    rw [List.takeWhile_eq_self_iff]
    intro c hc
    rw [hfree c hc]
    rfl
  unfold Widens at h
  rwa [htake] at h

/-- Once the far cells next to accepted ones are considered, a run is ready. -/
theorem Widens.ready (h : Widens m r1 cs r2) (hco : r1.Coherent m.mesh.size)
    (hfront : r1.FrontExact m.mesh)
    (hreached : ∀ c, r1.stateOf c = .considered → ∃ v, r1.arrival m c = some v)
    (hnear : ∀ c, r1.stateOf c = .far → ∀ d ∈ m.mesh.around c, r1.isAccepted d → c ∈ cs)
    (hstuck : cs.find? (r1.isStuck m) = none) : r2.Ready m := by
  have h2 := h.reassigned hstuck
  refine ⟨h2.coherent, hfront.congr h2.front h2.accepted, ?_, ?_⟩
  · intro c hc d hd
    rw [h2.isAccepted_eq, Bool.eq_false_iff]
    intro ha
    by_cases hin : c ∈ cs ∧ r1.stateOf c = .far
    · rw [(h2.inside c hin).1] at hc
      cases hc
    · rw [(h2.outside c hin).1] at hc
      exact hin ⟨hnear c hc d hd ha, hc⟩
  · intro c hc
    rw [h2.arrival_eq hco]
    rcases h.considered hc with ⟨hc1, -⟩ | ⟨-, -, hv⟩
    · exact hreached c hc1
    · exact ⟨_, hv⟩

variable [OrderedScalar α]

theorem Ready.isNaN_arrival (h : r.Ready m) (hc : r.stateOf c = .considered) :
    Scalar.isNaN ((r.arrival m c).getD Scalar.inf) = false := by
  obtain ⟨v, hv⟩ := h.reached c hc
  rw [hv]
  exact Medium.isNaN_of_tentative? hv

/-- Relaxing all considered cells that have something to gain, in any order and with any others,
leaves none that has. -/
theorem Ready.relaxAll (h : r.Ready m) (hcs : ∀ c ∈ cs, r.stateOf c = .considered)
    (hrest : ∀ c, r.stateOf c = .considered → c ∉ cs → r.falls m c = false) :
    ∃ r', r.relaxAll m cs = .ok r' ∧ Relaxes m r r' ∧ r'.Sound m := by
  obtain ⟨r', hr', h1⟩ := h.coherent.relaxAll (m := m) cs fun c hc =>
    ⟨hcs c hc, h.reached c (hcs c hc)⟩
  have hcount : (cs.toFinset.filter fun c => r.falls m c) =
      (Finset.range m.mesh.size).filter fun d => r.stateOf d = .considered ∧ r.falls m d := by
    ext c
    simp only [Finset.mem_filter, List.mem_toFinset, Finset.mem_range]
    constructor
    · rintro ⟨hc, hf⟩
      exact ⟨h.coherent.sized.lt_of_stateOf (by rw [hcs c hc]; decide), hcs c hc, hf⟩
    · rintro ⟨-, hc, hf⟩
      refine ⟨?_, hf⟩
      by_contra hn
      rw [hrest c hc hn] at hf
      cases hf
  have hall : Relaxes m r r' := by
    refine ⟨h1.coherent, h1.front, h1.accepted, h1.order, h1.iterations, ?_, ?_, ?_⟩
    · rw [h1.relaxations, hcount]
    · intro d hd
      by_cases hdcs : d ∈ cs
      · exact h1.inside d hdcs
      · obtain ⟨hs, hv⟩ := h1.outside d hdcs
        exact ⟨hs.trans hd, by rw [hv, relaxed, Scalar.lower_eq_left (hrest d hd hdcs)]⟩
    · exact fun d hd => h1.outside d fun hdcs => hd (hcs d hdcs)
  have hstate := Relaxes.stateOf_eq hall
  refine ⟨r', hr', hall, ⟨hall.coherent, h.front.congr hall.front hall.accepted, ?_, ?_⟩, ?_⟩
  · intro c hc d hd
    rw [hstate] at hc
    rw [hall.isAccepted_eq]
    exact h.aloof c hc d hd
  · intro c hc
    rw [hstate] at hc
    rw [hall.arrival_eq h.coherent]
    exact h.reached c hc
  · intro c v hc hv
    rw [hstate] at hc
    rw [hall.arrival_eq h.coherent] at hv
    have hle := Scalar.lower_le_right (h.coherent.isNaN_valueOf hc) (h.isNaN_arrival hc)
    rwa [(hall.inside c hc).2, relaxed, hv] at *

theorem Sound.exists_accepts (h : r.Sound m) (hu : m.mesh.Undirected)
    (hne : r.considered.isEmpty = false) : ∃ e r1, Accepts m r e r1 := by
  have hpos : 0 < r.considered.entries.size := by
    unfold IndexedHeap.isEmpty at hne
    rw [Array.isEmpty_eq_false_iff] at hne
    exact Array.size_pos_iff.mpr hne
  obtain ⟨e, h', hpop, hvalid, hkey, hd, hfirst⟩ := h.coherent.valid.pop hpos
  obtain ⟨hc, hv⟩ := h.coherent.key?_eq_some.mp hkey
  exact ⟨e, r.accept m e h', hc, hv, fun d hdc => hfirst d _ (h.coherent.key_considered hdc),
    h.coherent.accept hc hvalid hd, h.front.accept hu h.coherent.sized e h', rfl, h', hpop, rfl⟩

namespace Accepts

theorem le_valueOf (h : Accepts m r e r1) (hr : r.Coherent m.mesh.size)
    (hd : r.stateOf d = .considered) : Scalar.le e.value (r.valueOf d) := by
  have he : Scalar.isNaN e.value = false := h.value ▸ hr.isNaN_valueOf h.considered
  exact ((Entry.not_before_iff he (hr.isNaN_valueOf hd)).mp (h.first d hd)).1

/-- Two runs in which neither of the cells that they accept comes before the other accept the same
entry. -/
theorem entry_eq {m' : Medium α} {r' r1' : Run α} {e' : Entry Nat α} (h : Accepts m r e r1)
    (h' : Accepts m' r' e' r1') (hr : r.Coherent m.mesh.size)
    (hs : ∀ c, c = e.cell ∨ c = e'.cell →
      r'.stateOf c = r.stateOf c ∧ r'.valueOf c = r.valueOf c) : e' = e := by
  obtain ⟨hs1, hv1⟩ := hs e.cell (Or.inl rfl)
  obtain ⟨hs2, hv2⟩ := hs e'.cell (Or.inr rfl)
  have hc' : r.stateOf e'.cell = .considered := hs2 ▸ h'.considered
  have hv' : r.valueOf e'.cell = e'.value := hv2 ▸ h'.value
  have hcell : e'.cell = e.cell := by
    have h1 := h'.first e.cell (by rw [hs1, h.considered])
    have h2 := h.first e'.cell hc'
    rw [hv1, h.value] at h1
    rw [hv'] at h2
    refine Entry.cell_eq_of_not_before ?_ ?_ h1 h2
    · exact hv' ▸ hr.isNaN_valueOf hc'
    · exact h.value ▸ hr.isNaN_valueOf h.considered
  have hvalue : e'.value = e.value := by rw [← hv', ← h.value, hcell]
  cases e
  cases e'
  dsimp only at *
  rw [hcell, hvalue]

/-- A considered cell keeps getting a value when another cell is accepted. -/
theorem reached (h : Accepts m r e r1) (hr : r.Ready m) (hu : m.mesh.Undirected)
    (hc : r1.stateOf c = .considered) : ∃ v, r1.arrival m c = some v := by
  have hc1 : r1.stateOf c ≠ .accepted := by rw [hc]; decide
  obtain ⟨v, hv⟩ := hr.reached c ((h.stateOf_ne hc1).2 ▸ hc)
  refine Medium.exists_tentative?_of_grow (fun d hd hdf => ?_) h.valueOf_front hv
  rw [h.contains_front hr hu hc1 hd, hdf, Bool.or_true]

/-- After the insertions only neighbours of the accepted cell that were considered before have
something to gain. -/
theorem falls_eq_false (h : Accepts m r e r1) (hr : r.Sound m) (hu : m.mesh.Undirected)
    (hw : Widens m r1 (m.mesh.around e.cell) r2) (hc : r2.stateOf c = .considered)
    (hnot : ¬(c ∈ m.mesh.around e.cell ∧ r1.stateOf c = .considered)) :
    r2.falls m c = false := by
  unfold falls
  rw [hw.arrival_eq h.settled.coherent]
  rcases hw.considered hc with ⟨hc1, hv⟩ | ⟨-, -, hv⟩
  · have hne : r1.stateOf c ≠ .accepted := by rw [hc1]; decide
    have hce : c ∉ m.mesh.around e.cell := fun hce => hnot ⟨hce, hc1⟩
    have hc0 : r.stateOf c = .considered := (h.stateOf_ne hne).2 ▸ hc1
    obtain ⟨v, harr⟩ := hr.reached c hc0
    rw [hv, h.valueOf_eq, h.arrival_of_not_around hr.toReady hu hne hce, harr]
    exact Scalar.not_lt_of_le (hr.steady c v hc0 harr)
  · rw [hv]
    exact Scalar.lt_irrefl _

end Accepts

/-- What a step does from the acceptance on, be it that the neighbours of the accepted cell are
relaxed that were considered before, or any considered cells with them. -/
theorem Accepts.spread (h : Accepts m r e r1) (hr : r.Sound m) (hu : m.mesh.Undirected) :
    ∃ r2, Widens m r1 (m.mesh.around e.cell) r2 ∧
      match (m.mesh.around e.cell).find? (r1.isStuck m) with
      | some c => r1.considerFar m (m.mesh.around e.cell) = .error ⟨.unreached c, r2⟩
      | none => r1.considerFar m (m.mesh.around e.cell) = .ok r2 ∧ r2.Ready m ∧
          ∀ cs, (∀ c ∈ cs, r2.stateOf c = .considered) →
            (∀ c ∈ m.mesh.around e.cell, r1.stateOf c = .considered → c ∈ cs) →
            ∃ r3, r2.relaxAll m cs = .ok r3 ∧ Relaxes m r2 r3 ∧ r3.Sound m := by
  obtain ⟨r2, hw, hr2⟩ := h.settled.coherent.considerFar (m := m) (m.mesh.around e.cell)
  refine ⟨r2, hw, ?_⟩
  cases hstuck : (m.mesh.around e.cell).find? (r1.isStuck m) with
  | some c =>
    rw [hstuck] at hr2
    exact hr2
  | none =>
    rw [hstuck] at hr2
    have hready : r2.Ready m := Widens.ready hw h.settled.coherent h.front
      (fun c hc => h.reached hr.toReady hu hc)
      (fun c hc d hd ha => by
        rw [h.eq_of_far hr.toReady hc hd ha] at hd
        exact hu.symm hd) hstuck
    refine ⟨hr2, hready, fun cs hcs hnear => hready.relaxAll hcs fun c hc hn => ?_⟩
    exact h.falls_eq_false hr hu hw hc fun hnc => hn (hnear c hnc.1 hnc.2)

/-- A step of a sound run with considered cells. It accepts the first of them and makes the far
neighbours of that cell considered; it stops if one of them is stuck, and relaxes otherwise. -/
theorem Sound.step (hr : r.Sound m) (hu : m.mesh.Undirected)
    (hne : r.considered.isEmpty = false) :
    ∃ e r1 r2, Accepts m r e r1 ∧ Widens m r1 (m.mesh.around e.cell) r2 ∧
      match (m.mesh.around e.cell).find? (r1.isStuck m) with
      | some c => r.step m = .error ⟨.unreached c, r2⟩
      | none => r2.Ready m ∧ ∃ r3, r.step m = .ok r3 ∧ Relaxes m r2 r3 ∧ r3.Sound m := by
  obtain ⟨e, r1, h⟩ := hr.exists_accepts hu hne
  obtain ⟨r2, hw, hcase⟩ := h.spread hr hu
  obtain ⟨h', hpop, hr1⟩ := h.taken
  have hstep : r.step m = r1.spread m e.cell := by
    unfold Run.step
    rw [hpop, hr1]
  refine ⟨e, r1, r2, h, hw, ?_⟩
  rw [hstep]
  unfold Run.spread
  cases hstuck : (m.mesh.around e.cell).find? (r1.isStuck m) with
  | some c =>
    rw [hstuck] at hcase
    show (r1.considerFar m (m.mesh.around e.cell)).bind _ = _
    rw [hcase]
    rfl
  | none =>
    rw [hstuck] at hcase
    obtain ⟨hr2, hready, hrelax⟩ := hcase
    obtain ⟨r3, hr3, hall, hsound⟩ :=
      hrelax ((m.mesh.around e.cell).filter fun d => r1.stateOf d = .considered)
        (fun c hc => by
          obtain ⟨-, hc⟩ := List.mem_filter.mp hc
          have hc : r1.stateOf c = .considered := by simpa using hc
          rw [(hw.outside c fun hin => by rw [hc] at hin; cases hin.2).1, hc])
        (fun c hc hs => List.mem_filter.mpr ⟨hc, by simpa using hs⟩)
    refine ⟨hready, r3, ?_, hall, hsound⟩
    show (r1.considerFar m (m.mesh.around e.cell)).bind _ = _
    rw [hr2]
    exact hr3

omit [OrderedScalar α] in
theorem isEmpty_of_step {r r' : Run α} (hs : r.step m = .ok r') : r.considered.isEmpty = false := by
  rw [Bool.eq_false_iff]
  intro he
  unfold Run.step at hs
  rw [IndexedHeap.pop_empty (by simpa [IndexedHeap.isEmpty] using he)] at hs
  cases hs

/-- The parts of a step that succeeds. -/
theorem Sound.parts_of_step (hr : r.Sound m) (hu : m.mesh.Undirected) (hs : r.step m = .ok r3) :
    ∃ e r1 r2, Accepts m r e r1 ∧ Widens m r1 (m.mesh.around e.cell) r2 ∧
      (m.mesh.around e.cell).find? (r1.isStuck m) = none ∧ r2.Ready m ∧ Relaxes m r2 r3 ∧
      r3.Sound m := by
  obtain ⟨e, r1, r2, h, hw, hcase⟩ := hr.step hu (isEmpty_of_step hs)
  split at hcase
  · rw [hcase] at hs
    cases hs
  · rename_i hstuck
    obtain ⟨hready, r3, hr3, hall, hsound⟩ := hcase
    rw [hr3] at hs
    cases hs
    exact ⟨e, r1, r2, h, hw, hstuck, hready, hall, hsound⟩

theorem Sound.of_step {r r' : Run α} (hr : r.Sound m) (hu : m.mesh.Undirected)
    (hs : r.step m = .ok r') : r'.Sound m := by
  obtain ⟨e, r1, r2, -, -, -, -, -, hsound⟩ := hr.parts_of_step hu hs
  exact hsound

/-- A step accepts one cell, the last in the order. -/
theorem Sound.exists_push_of_step {r r' : Run α} (hr : r.Sound m) (hu : m.mesh.Undirected)
    (hs : r.step m = .ok r') : ∃ c, r'.order = r.order.push c := by
  obtain ⟨e, r1, r2, h, hw, -, -, hall, -⟩ := hr.parts_of_step hu hs
  exact ⟨e.cell, by rw [hall.order, hw.order, h.settled.order]⟩

theorem Sound.iterations_of_step {r r' : Run α} (hr : r.Sound m) (hu : m.mesh.Undirected)
    (hs : r.step m = .ok r') : r'.iterations = r.iterations + 1 := by
  obtain ⟨e, r1, r2, h, hw, -, -, hall, -⟩ := hr.parts_of_step hu hs
  rw [hall.iterations, hw.iterations, h.iterations]

/-! ### The start phase -/

/-- The run `r1` has accepted the start cells with the value zero, and all other cells are far. -/
structure Seeds (m : Medium α) (starts : List Nat) (r1 : Run α) : Prop where
  coherent : r1.Coherent m.mesh.size
  front : r1.FrontExact m.mesh
  isAccepted : ∀ d, r1.isAccepted d ↔ d ∈ starts
  far : ∀ d, r1.stateOf d ≠ .accepted → r1.stateOf d = .far
  zero : ∀ d ∈ starts, r1.valueOf d = Scalar.zero
  order : r1.order = starts.toArray
  iterations : r1.iterations = 0
  relaxations : r1.relaxations = 0

omit [OrderedScalar α] in
theorem Seeds.stateOf_eq {starts : List Nat} (h : Seeds m starts r) (c : Nat) :
    r.stateOf c = if c < m.mesh.size ∧ c ∉ starts then .far else .accepted := by
  split
  · rename_i hc
    refine h.far c fun ha => hc.2 ?_
    rwa [← h.isAccepted, h.coherent.accepted_iff c hc.1]
  · rename_i hc
    by_contra hne
    refine hc ⟨h.coherent.sized.lt_of_stateOf hne, fun hcs => ?_⟩
    exact hne (h.coherent.stateOf_of_accepted ((h.isAccepted c).mpr hcs))

omit [OrderedScalar α] in
theorem Seeds.valueOf_eq {starts : List Nat} (h : Seeds m starts r) (c : Nat) :
    r.valueOf c = if c ∈ starts then Scalar.zero else Scalar.inf := by
  split
  · rename_i hc
    exact h.zero c hc
  · rename_i hc
    by_cases hlt : c < m.mesh.size
    · exact h.coherent.far c (by rw [h.stateOf_eq, if_pos ⟨hlt, hc⟩])
    · simp [valueOf, Array.getD, h.coherent.sized.solution, hlt]

omit [OrderedScalar α] in
theorem seeds_prune {starts : List Nat} (hn : starts.Nodup)
    (hlt : ∀ c ∈ starts, c < m.mesh.size) {r : Run α}
    (hr : r = starts.foldl (fun r c => r.settle c Scalar.zero) (fresh m.mesh.size)) :
    Seeds m starts (r.prune m r.front.toList) := by
  have hfull : r.FrontFull := by
    rw [hr]
    exact frontFull_foldl_settle (sized_fresh _) (frontFull_fresh _) hlt
  obtain ⟨hco, h1, h2, h3, h4, h5, h6⟩ :=
    (coherent_fresh m.mesh.size).foldl_settle hn (fun c hc => stateOf_fresh (hlt c hc)) hr
  refine ⟨hco.prune _, hfull.prune, ?_, ?_, ?_, ?_, h5, h6⟩
  · intro d
    show r.isAccepted d ↔ d ∈ starts
    rw [h1, isAccepted_fresh, Bool.or_false, List.contains_iff_mem]
  · intro d hd
    have hd : r.stateOf d ≠ .accepted := hd
    show r.stateOf d = .far
    have hdlt := hco.sized.lt_of_stateOf hd
    rw [h2] at hd ⊢
    split at hd
    · exact absurd rfl hd
    · rename_i hds
      rw [if_neg hds]
      exact stateOf_fresh hdlt
  · intro d hd
    show r.valueOf d = Scalar.zero
    rw [h3, if_pos hd]
  · show r.order = _
    rw [h4]
    simp [fresh]

/-- The start phase accepts the start cells and makes their neighbours considered, unless one of
them is stuck. -/
theorem seed_cases (hu : m.mesh.Undirected) {starts : List Nat} (hn : starts.Nodup)
    (hlt : ∀ c ∈ starts, c < m.mesh.size) :
    ∃ r1 r2, Seeds m starts r1 ∧ Widens m r1 (starts.flatMap m.mesh.around) r2 ∧
      ((∃ c ∈ starts.flatMap m.mesh.around, r1.isStuck m c ∧
          (fresh m.mesh.size).seed m starts = .error ⟨.unreached c, r2⟩) ∨
        ((starts.flatMap m.mesh.around).find? (r1.isStuck m) = none ∧
          (fresh m.mesh.size).seed m starts = .ok r2 ∧ r2.Sound m)) := by
  obtain ⟨r, hr⟩ : ∃ r : Run α,
      r = starts.foldl (fun r c => r.settle c Scalar.zero) (fresh m.mesh.size) := ⟨_, rfl⟩
  have h := seeds_prune hn hlt hr
  have hseed : (fresh m.mesh.size : Run α).seed m starts =
      (r.prune m r.front.toList).considerFar m (starts.flatMap m.mesh.around) := by
    rw [hr]
    rfl
  generalize r.prune m r.front.toList = r1 at *
  obtain ⟨r2, hw, hr2⟩ := h.coherent.considerFar (m := m) (starts.flatMap m.mesh.around)
  refine ⟨r1, r2, h, hw, ?_⟩
  rw [hseed]
  have hnone : ∀ c, r1.stateOf c ≠ .considered := by
    intro c hc
    rw [h.far c (by rw [hc]; decide)] at hc
    cases hc
  cases hstuck : (starts.flatMap m.mesh.around).find? (r1.isStuck m) with
  | some c =>
    rw [hstuck] at hr2
    exact Or.inl ⟨c, List.mem_of_find?_eq_some hstuck, List.find?_some hstuck, hr2⟩
  | none =>
    rw [hstuck] at hr2
    refine Or.inr ⟨rfl, hr2, Widens.ready hw h.coherent h.front (fun c hc => absurd hc (hnone c)) ?_
      hstuck, ?_⟩
    · intro c _ d hd ha
      exact List.mem_flatMap.mpr ⟨d, (h.isAccepted d).mp ha, hu.symm hd⟩
    · intro c v hc hv
      rw [hw.arrival_eq h.coherent] at hv
      rcases Widens.considered hw hc with ⟨hc1, -⟩ | ⟨-, -, hval⟩
      · exact absurd hc1 (hnone c)
      · rw [hval] at hv
        cases hv
        exact Scalar.le_refl (Medium.isNaN_of_tentative? hval)

theorem sound_of_seed (hu : m.mesh.Undirected) {starts : List Nat} (hn : starts.Nodup)
    (hlt : ∀ c ∈ starts, c < m.mesh.size) {r : Run α}
    (hr : (fresh m.mesh.size).seed m starts = .ok r) : r.Sound m := by
  obtain ⟨r1, r2, -, -, ⟨c, -, -, hs⟩ | ⟨-, hs, hsound⟩⟩ := seed_cases hu hn hlt
  · rw [hs] at hr
    cases hr
  · rw [hs] at hr
    cases hr
    exact hsound

theorem iterations_of_seed (hu : m.mesh.Undirected) {starts : List Nat} (hn : starts.Nodup)
    (hlt : ∀ c ∈ starts, c < m.mesh.size) {r : Run α}
    (hr : (fresh m.mesh.size).seed m starts = .ok r) : r.iterations = 0 := by
  obtain ⟨r1, r2, h, hw, ⟨c, -, -, hs⟩ | ⟨-, hs, -⟩⟩ := seed_cases hu hn hlt
  · rw [hs] at hr
    cases hr
  · rw [hs] at hr
    cases hr
    rw [hw.iterations, h.iterations]

theorem sound_of_mem_trace (hu : m.mesh.Undirected) {starts : List Nat} (hn : starts.Nodup)
    (hlt : ∀ c ∈ starts, c < m.mesh.size) {r r' : Run α} (hr : r.Sized m.mesh.size) {bound : Int}
    (hr' : r' ∈ trace m bound starts r) : r'.Sound m := by
  unfold trace at hr'
  rw [hr.reset] at hr'
  cases hs : (fresh m.mesh.size).seed m starts with
  | error e =>
    rw [hs] at hr'
    cases hr'
  | ok r1 =>
    rw [hs] at hr'
    obtain ⟨r0, h0, hstep⟩ := exists_step_of_mem_passed (P := (Sound m))
      (fun a b ha hb => ha.of_step hu hb) (sound_of_seed hu hn hlt hs) hr'
    exact h0.of_step hu hstep

/-! ### A solve -/

/-- What holds after the start cells are accepted and is kept by every part of a step. -/
structure Invariant (m : Medium α) (starts : List Nat) (P : Run α → Prop) : Prop where
  seeds : ∀ {r1}, Seeds m starts r1 → P r1
  accepts : ∀ {r e r1}, r.Sound m → P r → Accepts m r e r1 → P r1
  widens : ∀ {r1 cs r2}, r1.Coherent m.mesh.size → P r1 → Widens m r1 cs r2 → P r2
  relaxes : ∀ {r2 r3}, r2.Ready m → P r2 → Relaxes m r2 r3 → P r3

namespace Invariant

variable {P : Run α → Prop} {starts : List Nat}

theorem step (h : Invariant m starts P) (hu : m.mesh.Undirected) (hr : r.Sound m) (hP : P r)
    (hne : r.considered.isEmpty = false) :
    match r.step m with
    | .ok r' => r'.Sound m ∧ P r'
    | .error e => P e.run := by
  obtain ⟨e, r1, r2, h1, hw, hcase⟩ := hr.step hu hne
  have h2 := h.widens h1.settled.coherent (h.accepts hr hP h1) hw
  split at hcase
  · rw [hcase]
    exact h2
  · obtain ⟨hready, r3, hr3, hall, hsound⟩ := hcase
    rw [hr3]
    exact ⟨hsound, h.relaxes hready h2 hall⟩

theorem seed (h : Invariant m starts P) (hu : m.mesh.Undirected) (hn : starts.Nodup)
    (hlt : ∀ c ∈ starts, c < m.mesh.size) :
    match (fresh m.mesh.size).seed m starts with
    | .ok r => r.Sound m ∧ P r
    | .error e => P e.run := by
  obtain ⟨r1, r2, h1, hw, hcase⟩ := seed_cases hu hn hlt
  have h2 := h.widens h1.coherent (h.seeds h1) hw
  rcases hcase with ⟨c, -, -, hs⟩ | ⟨-, hs, hsound⟩
  · rw [hs]
    exact h2
  · rw [hs]
    exact ⟨hsound, h2⟩

/-- An invariant holds where a solve ends or stops and after each of its steps; the runs that were
not stopped in the middle of a step are sound as well. -/
theorem solve (h : Invariant m starts P) (hu : m.mesh.Undirected) (hn : starts.Nodup)
    (hlt : ∀ c ∈ starts, c < m.mesh.size) (hr : r.Sized m.mesh.size) (bound : Int) :
    P (left (solve m bound starts r)) ∧
      (∀ r', Run.solve m bound starts r = .ok r' →
        r'.Sound m ∧ P r' ∧ r'.considered.isEmpty) ∧
      ∀ r' ∈ trace m bound starts r, r'.Sound m ∧ P r' := by
  have hseed := h.seed hu hn hlt
  have hok : ∀ a b : Run α, a.Sound m ∧ P a → a.step m = .ok b → b.Sound m ∧ P b := by
    intro a b ha hab
    have := h.step hu ha.1 ha.2 (isEmpty_of_step hab)
    rwa [hab] at this
  unfold Run.solve trace
  rw [hr.reset]
  cases hs : (fresh m.mesh.size).seed m starts with
  | error e =>
    rw [hs] at hseed
    refine ⟨hseed, fun r' hr' => ?_, fun r' hr' => ?_⟩ <;> cases hr'
  | ok r1 =>
    rw [hs] at hseed
    -- the main loop ends in `a`, is refused a step from `a`, or stops within one
    obtain ⟨a, ha, hcase⟩ := advance_cases bound hok hseed
    refine ⟨?_, ?_, fun r' hr' => ?_⟩
    · show P (left (advance m bound r1))
      obtain ⟨-, hend⟩ | ⟨hne, ⟨-, hend⟩ | ⟨-, e, hs', hend⟩⟩ := hcase
      · rw [hend]
        exact ha.2
      · rw [hend]
        exact ha.2
      · rw [hend]
        have := h.step hu ha.1 ha.2 hne
        rwa [hs'] at this
    · intro r' hr'
      have hr' : advance m bound r1 = .ok r' := hr'
      obtain ⟨he, hend⟩ | ⟨-, ⟨-, hend⟩ | ⟨-, e, -, hend⟩⟩ := hcase
      · rw [hend] at hr'
        cases hr'
        exact ⟨ha.1, ha.2, he⟩
      · rw [hend] at hr'
        cases hr'
      · rw [hend] at hr'
        cases hr'
    · obtain ⟨r0, h0, hstep⟩ := exists_step_of_mem_passed hok hseed hr'
      exact hok r0 r' h0 hstep

end Invariant

end Eikonal.Run
