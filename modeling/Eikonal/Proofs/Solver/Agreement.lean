import Eikonal.Proofs.Scalar.Binary64
import Eikonal.Proofs.Solver.Sound

/-! The parts of a run describe one state. What a cell is can be read from its state, from the heap,
from the accepted flags and from the order of acceptance; all of them say the same after every step,
at the end of a solve, and where a solve stops in the middle of a step. -/

namespace Eikonal

variable {α : Type} [Scalar α]

namespace Run

/-- The parts of a run over `n` cells that began at the cells `starts` describe the same state. -/
structure InAgreement (n : Nat) (starts : List Nat) (r : Run α) : Prop where
  accepted_iff : ∀ c < n, r.isAccepted c ↔ r.stateOf c = .accepted
  contains_iff : ∀ c, r.considered.contains c ↔ r.stateOf c = .considered
  mem_entries : ∀ e, e ∈ r.considered.entries ↔
    r.stateOf e.cell = .considered ∧ r.valueOf e.cell = e.value
  nodup_entries : r.considered.entries.toList.Nodup
  key : ∀ c, r.stateOf c = .considered → r.considered.key c = .ok (r.valueOf c) ∧
    Scalar.lt (r.valueOf c) Scalar.inf ∧ Scalar.isNaN (r.valueOf c) = false
  far : ∀ c, r.stateOf c = .far → r.valueOf c = Scalar.inf
  nodup_order : r.order.toList.Nodup
  mem_order : ∀ c, c ∈ r.order ↔ r.isAccepted c
  started : starts <+: r.order.toList
  iterations : r.order.size = r.iterations + starts.length

/-- The considered cells lie between the accepted and the far ones. -/
structure Bordered (mesh : Mesh α) (r : Run α) : Prop where
  aloof : ∀ c, r.stateOf c = .far → ∀ d ∈ mesh.around c, r.isAccepted d = false
  reached : ∀ c, r.stateOf c = .considered → ∃ d ∈ mesh.around c, r.isAccepted d

/-- A coherent run that began at the cells `starts` and has considered no cell at infinity. -/
structure Tracked (n : Nat) (starts : List Nat) (r : Run α) : Prop extends Coherent n r where
  below : ∀ c, r.stateOf c = .considered → Scalar.lt (r.valueOf c) Scalar.inf
  started : starts <+: r.order.toList
  count : r.order.size = r.iterations + starts.length

variable {m : Medium α} {n k : Nat} {starts cs : List Nat} {r r1 r2 r3 : Run α} {e : Entry Nat α}
  {p : Nat → Prop} {f : Nat → α}

theorem Tracked.inAgreement (h : r.Tracked n starts) : r.InAgreement n starts := by
  refine ⟨h.accepted_iff, fun c => ?_, fun e => h.toCoherent.mem_entries, ?_, fun c hc => ?_, h.far,
    h.nodup, h.mem_order, h.started, h.count⟩
  · rw [h.valid.consistent.contains_eq, h.key c]
    split <;> simp [*]
  · exact h.valid.consistent.nodup
  · refine ⟨?_, h.below c hc, h.toCoherent.isNaN_valueOf hc⟩
    rw [IndexedHeap.key, h.key_considered hc]

/-- A cell gets a value from the front only if a neighbour stands there. -/
theorem Sound.bordered [OrderedScalar α] (h : r.Sound m) : r.Bordered m.mesh := by
  refine ⟨h.aloof, fun c hc => ?_⟩
  obtain ⟨v, hv⟩ := h.reached c hc
  rcases Medium.exists_candidate hv with ⟨p, hp, -⟩ | ⟨j, hj, -⟩
  · obtain ⟨hp, hfront, -⟩ := Medium.mem_upwindPairs.mp hp
    exact ⟨p.1, (mem_of_mem_cyclicPairs hp).1, h.coherent.front_accepted p.1 hfront⟩
  · obtain ⟨hj, hfront⟩ := Medium.mem_upwind.mp hj
    exact ⟨j, hj, h.coherent.front_accepted j hfront⟩

/-! ### What keeps a run tracked -/

/-- New considered values keep a run tracked if they are below infinity. -/
theorem Tracked.reassigned (h : r.Tracked n starts) (h1 : Reassigned n r p f k r1)
    (hf : ∀ d, p d → Scalar.lt (f d) Scalar.inf) : r1.Tracked n starts := by
  refine ⟨h1.coherent, fun c hc => ?_, ?_, ?_⟩
  · by_cases hp : p c
    · rw [(h1.inside c hp).2]
      exact hf c hp
    · rw [(h1.outside c hp).1] at hc
      rw [(h1.outside c hp).2]
      exact h.below c hc
  · rw [h1.order]
    exact h.started
  · rw [h1.order, h1.iterations]
    exact h.count

theorem Tracked.accepts (h : r.Tracked m.mesh.size starts) (h1 : Accepts m r e r1) :
    r1.Tracked m.mesh.size starts := by
  refine ⟨h1.settled.coherent, fun c hc => ?_, ?_, ?_⟩
  · rw [h1.valueOf_eq]
    exact h.below c ((h1.stateOf_ne (by rw [hc]; decide)).2 ▸ hc)
  · rw [h1.settled.order, Array.toList_push]
    exact h.started.trans (List.prefix_append _ _)
  · rw [h1.settled.order, Array.size_push, h.count, h1.iterations, Nat.add_right_comm]

theorem Tracked.seeds (h : Seeds m starts r) : r.Tracked m.mesh.size starts := by
  refine ⟨h.coherent, fun c hc => ?_, ?_, ?_⟩
  · have := h.far c (by rw [hc]; decide)
    rw [hc] at this
    cases this
  · rw [h.order]
  · rw [h.order, h.iterations]
    simp

variable [OrderedScalar α]

theorem Tracked.widens (h : r1.Tracked m.mesh.size starts) (h1 : Widens m r1 cs r2) :
    r2.Tracked m.mesh.size starts := by
  apply h.reassigned h1
  rintro d ⟨hd, hfar⟩
  obtain ⟨v, hv⟩ := exists_arrival hd hfar
  rw [hv]
  exact Medium.lt_inf_of_tentative? hv

theorem Tracked.relaxes (h : r2.Tracked m.mesh.size starts) (h1 : Relaxes m r2 r3) :
    r3.Tracked m.mesh.size starts := by
  apply h.reassigned h1
  intro d hd
  have hle := Scalar.lower_le_left (b := (r2.arrival m d).getD Scalar.inf)
    (h.toCoherent.isNaN_valueOf hd)
  exact Scalar.lt_of_le_of_lt hle (h.below d hd)

theorem invariant_tracked (m : Medium α) (starts : List Nat) :
    Invariant m starts (Tracked m.mesh.size starts) where
  seeds := Tracked.seeds
  accepts _ h := h.accepts
  widens _ h := h.widens
  relaxes _ h := h.relaxes

end Run

theorem lt_of_startCell {n c : Nat} {v : Json} (h : startCell n v = .ok c) : c < n := by
  unfold startCell at h
  split at h
  · cases h
  · split at h
    · rename_i hc
      cases h
      simp at hc
      omega
    · cases h

/-- The start cells are those that the parts of the given value name. -/
theorem mem_startCells_iff {n c : Nat} {v : Json} {cells : List Nat}
    (h : startCells n v = .ok cells) :
    c ∈ cells ↔ ∃ parts, v.parts? = some parts ∧ ∃ p ∈ parts, startCell n p = .ok c := by
  unfold startCells at h
  split at h
  · cases h
  · rename_i parts hv
    cases hids : parts.mapM (startCell n) with
    | error e =>
      rw [hids] at h
      cases h
    | ok ids =>
      rw [hids] at h
      cases h
      rw [hv]
      simp only [ascending, List.mem_filter, List.mem_range, List.contains_iff_mem,
        mem_mapM_iff hids, Option.some_inj, exists_eq_left']
      exact ⟨fun hc => hc.2, fun ⟨p, hp, hc⟩ => ⟨lt_of_startCell hc, p, hp, hc⟩⟩

namespace Solver

variable [OrderedScalar α] {memory : Memory} {g : CellGrid α} {mesh : Mesh α} {s : Solver α}
  {metric : NdArray α} {starts : Json} {field : MetricField α} {cells : List Nat}

/-- In every run that a solve shows after a step or leaves, at its end or where it stopped, the
parts agree; after a step and at the end the considered cells are those next to accepted ones. -/
theorem structures_agree (hg : Mesh.ofGrid memory g = .ok mesh) (hs : Reachable mesh s)
    (hin : s.checkInput metric starts = .ok (field, cells)) :
    (s.solve metric starts).1.run.InAgreement mesh.size cells ∧
      (∀ u, (s.solve metric starts).2 = .ok u → (s.solve metric starts).1.run.Bordered mesh) ∧
      (∀ r ∈ s.trace metric starts, r.InAgreement mesh.size cells ∧ r.Bordered mesh) ∧
      cells.Pairwise (· < ·) ∧
      ∀ c, c ∈ cells ↔ ∃ parts, starts.parts? = some parts ∧
        ∃ p ∈ parts, startCell mesh.size p = .ok c := by
  obtain ⟨rfl, hsized⟩ := hs.sized
  obtain ⟨hasc, hlt⟩ := starts_of_checkInput hin
  obtain ⟨hleft, hend, htrace⟩ := (Run.invariant_tracked ⟨s.mesh, field⟩ cells).solve
    (Mesh.undirected_of_ofGrid hg) (hasc.imp fun h => Nat.ne_of_lt h) hlt hsized s.bound
  rw [trace_eq hin]
  refine ⟨?_, fun u hret => ?_, fun r hr => ?_, hasc, fun c => ?_⟩
  · rw [run_solve hin]
    exact hleft.inAgreement
  · obtain ⟨r, hr, hrun, -⟩ := exists_run_of_returned hin hret
    rw [hrun]
    exact (hend r hr).1.bordered
  · obtain ⟨hsound, htracked⟩ := htrace r hr
    exact ⟨htracked.inAgreement, hsound.bordered⟩
  · exact mem_startCells_iff (checkInput_eq_ok_iff.mp hin).2

theorem structures_agree_sample :
    ((new sampleMesh none).solve sampleMetric sampleStarts).1.run.InAgreement sampleMesh.size [0] :=
  (structures_agree ofGrid_sampleGrid (.new none) checkInput_sample).1

end Solver

end Eikonal
