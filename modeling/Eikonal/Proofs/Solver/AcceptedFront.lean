import Eikonal.Proofs.Solver.History
import Eikonal.Proofs.Solver.Mesh

/-! The accepted front is exact: it holds the accepted cells that have a neighbour which is not
accepted, and no others. A step prunes only the cell it accepts and the neighbours of that cell;
this is enough because neighbours are neighbours of each other. A run prunes as a front prunes
against a table from outside, here the table of its mesh. -/

namespace Eikonal

variable {α : Type}

theorem getD_setIfInBounds {β : Type} (a : Array β) (i j : Nat) (x y : β) :
    (a.setIfInBounds i x).getD j y = if i = j ∧ i < a.size then x else a.getD j y := by
  rw [Array.getD_eq_getD_getElem?, Array.getElem?_setIfInBounds, Array.getD_eq_getD_getElem?]
  by_cases hij : i = j
  · subst hij
    by_cases hi : i < a.size
    · simp [hi]
    · simp [hi]
  · simp [hij]

theorem getD_setIfInBounds_of_lt {β : Type} {a : Array β} {i : Nat} (hi : i < a.size) (j : Nat)
    (x y : β) : (a.setIfInBounds i x).getD j y = if j = i then x else a.getD j y := by
  rw [getD_setIfInBounds]
  simp only [hi, and_true, eq_comm]

namespace Mesh

variable {mesh : Mesh α} {c d : Nat}

/-- The lists of neighbours as a table from outside. -/
def table (mesh : Mesh α) : Array (List Int) := mesh.neighbours.map fun l => l.map Int.ofNat

theorem getD_table (mesh : Mesh α) (c : Nat) :
    mesh.table.getD c [] = (mesh.around c).map Int.ofNat := by
  by_cases hc : c < mesh.neighbours.size
  · simp [table, around, NeighbourTable.row, Array.getD, hc]
  · simp [table, around, NeighbourTable.row, Array.getD, hc]

theorem mem_getD_table : (d : Int) ∈ mesh.table.getD c [] ↔ d ∈ mesh.around c := by
  rw [getD_table]
  exact List.mem_map_of_injective fun _ _ => Int.ofNat.inj

theorem mutual_table (hu : mesh.Undirected) (hsize : mesh.neighbours.size = mesh.size) :
    Front.Mutual mesh.table := by
  intro c _ d hd
  rw [getD_table] at hd
  obtain ⟨k, hk, rfl⟩ := List.mem_map.mp hd
  have hlt : k < mesh.table.size := by
    rw [table, Array.size_map, hsize]
    exact hu.lt_right hk
  exact ⟨⟨Int.natCast_nonneg k, Int.ofNat_lt.mpr hlt⟩, mem_getD_table.mpr (hu.symm hk)⟩

end Mesh

namespace Run

/-- The front holds the accepted cells that have a neighbour which is not accepted. -/
def FrontExact (mesh : Mesh α) (r : Run α) : Prop :=
  ∀ c : Int, r.front.contains c ↔
    ∃ d : Nat, c = d ∧ r.isAccepted d ∧ ∃ b ∈ mesh.around d, r.isAccepted b = false

/-- The front holds all accepted cells. -/
def FrontFull (r : Run α) : Prop :=
  ∀ c : Int, r.front.contains c ↔ ∃ d : Nat, c = d ∧ r.isAccepted d

variable {mesh : Mesh α} {r r' : Run α} {c d : Nat} {v : α}

theorem FrontExact.congr (h : r.FrontExact mesh) (hf : r'.front = r.front)
    (ha : r'.accepted = r.accepted) : r'.FrontExact mesh := by
  unfold FrontExact isAccepted
  rw [hf, ha]
  exact h

theorem FrontExact.contains_iff (h : r.FrontExact mesh) :
    r.front.contains c ↔ r.isAccepted c ∧ ∃ b ∈ mesh.around c, r.isAccepted b = false := by
  rw [h c]
  constructor
  · rintro ⟨d, hd, hrest⟩
    rw [Int.ofNat_inj.mp hd]
    exact hrest
  · exact fun hrest => ⟨c, rfl, hrest⟩

/-- Of the neighbours of a cell that is not accepted, those on the front are the accepted ones. -/
theorem FrontExact.contains_of_around (h : r.FrontExact mesh) (hu : mesh.Undirected)
    (hc : r.isAccepted c = false) (hd : d ∈ mesh.around c) :
    r.front.contains d = r.isAccepted d := by
  rw [Bool.eq_iff_iff, h.contains_iff]
  exact ⟨fun hd => hd.1, fun ha => ⟨ha, c, hu.symm hd, hc⟩⟩

theorem FrontExact.upwind_eq (h : r.FrontExact mesh) (hu : mesh.Undirected)
    (hc : r.isAccepted c = false) (field : MetricField α) :
    Medium.upwind ⟨mesh, field⟩ r.front c = (mesh.around c).filter r.isAccepted :=
  List.filter_congr fun _ hd => h.contains_of_around hu hc hd

theorem isAccepted_settle {n : Nat} (hr : r.Sized n) :
    (r.settle c v).isAccepted d ↔ (c = d ∧ c < n) ∨ r.isAccepted d := by
  unfold isAccepted settle
  rw [getD_setIfInBounds, hr.accepted]
  split
  · rename_i h
    exact ⟨fun _ => Or.inl h, fun _ => rfl⟩
  · rename_i h
    exact ⟨Or.inr, fun hd => hd.resolve_left h⟩

theorem contains_settle {c : Int} : (r.settle d v).front.contains c = ((d : Int) == c ||
    r.front.contains c) :=
  Front.contains_insert _ _ _

/-! ### The start phase -/

theorem FrontFull.settle {n : Nat} (h : r.FrontFull) (hr : r.Sized n) (hc : c < n) :
    (r.settle c v).FrontFull := by
  intro a
  rw [contains_settle, Bool.or_eq_true, beq_iff_eq, h a]
  simp only [isAccepted_settle hr]
  constructor
  · rintro (rfl | ⟨d, rfl, hd⟩)
    · exact ⟨c, rfl, Or.inl ⟨rfl, hc⟩⟩
    · exact ⟨d, rfl, Or.inr hd⟩
  · rintro ⟨d, rfl, ⟨rfl, -⟩ | hd⟩
    · exact Or.inl rfl
    · exact Or.inr ⟨d, rfl, hd⟩

theorem isAccepted_fresh [Scalar α] (n d : Nat) : (fresh n : Run α).isAccepted d = false := by
  by_cases hd : d < n <;> simp [isAccepted, fresh, Array.getD, hd]

theorem frontFull_fresh [Scalar α] (n : Nat) : (fresh n : Run α).FrontFull := by
  intro a
  simp only [isAccepted_fresh]
  simp [fresh]

theorem frontFull_foldl_settle [Scalar α] {n : Nat} {starts : List Nat} (hr : r.Sized n)
    (h : r.FrontFull) (hstarts : ∀ c ∈ starts, c < n) :
    (starts.foldl (fun r c => r.settle c Scalar.zero) r).FrontFull := by
  induction starts generalizing r with
  | nil => exact h
  | cons c cs ih =>
    obtain ⟨hc, hcs⟩ := List.forall_mem_cons.mp hstarts
    exact ih (hr.settle c _) (h.settle hr hc) hcs

/-! ### Pruning -/

variable {m : Medium α}

theorem isEnclosed_eq_false :
    r.isEnclosed m (d : Int) = false ↔ ∃ b ∈ m.mesh.around d, r.isAccepted b = false := by
  simp [isEnclosed, Medium.around]

/-- Pruning makes a front exact that lacks no accepted cell it should hold, if all the cells it
should not hold are enclosed and listed. -/
theorem frontExact_prune {cs : List Int}
    (hlisted : ∀ c : Int, r.front.contains c → (c ∈ cs ∧ r.isEnclosed m c) ∨
      ∃ d : Nat, c = d ∧ r.isAccepted d ∧ r.isEnclosed m (d : Int) = false)
    (hheld : ∀ d : Nat, r.isAccepted d → r.isEnclosed m (d : Int) = false → r.front.contains d) :
    (r.prune m cs).FrontExact m.mesh := by
  intro c
  show (r.front.prune (r.isEnclosed m) cs).contains c ↔
    ∃ d : Nat, c = d ∧ r.isAccepted d ∧ ∃ b ∈ m.mesh.around d, r.isAccepted b = false
  simp only [← isEnclosed_eq_false]
  rw [Front.contains_prune, Bool.and_eq_true]
  constructor
  · rintro ⟨hc, hp⟩
    refine (hlisted c hc).resolve_left fun h => ?_
    simp [h.1, h.2] at hp
  · rintro ⟨d, rfl, hd, ho⟩
    exact ⟨hheld d hd ho, by simp [ho]⟩

/-- Pruning all cells of a full front makes it exact. -/
theorem FrontFull.prune (h : r.FrontFull) : (r.prune m r.front.toList).FrontExact m.mesh := by
  refine frontExact_prune (fun c hc => ?_) fun d hd _ => (h d).mpr ⟨d, rfl, hd⟩
  obtain ⟨d, rfl, hd⟩ := (h c).mp hc
  cases ho : r.isEnclosed m (d : Int) with
  | true => exact Or.inl ⟨Front.mem_toList.mpr hc, rfl⟩
  | false => exact Or.inr ⟨d, rfl, hd, ho⟩

/-- Pruning a run is pruning its front against the table of its mesh. -/
theorem pruneTable_eq_prune [Scalar α] {memory : Memory} {g : CellGrid α} {cs : List Int}
    (hg : Mesh.ofGrid memory g = .ok m.mesh) (hr : r.Sized m.mesh.size)
    (hf : ∀ c : Int, r.front.contains c → ∃ d < m.mesh.size, c = (d : Nat)) :
    Front.pruneTable m.mesh.table r.accepted cs r.front = .ok (r.prune m cs).front := by
  have hu := Mesh.undirected_of_ofGrid hg
  have hsize := Mesh.size_neighbours_of_ofGrid hg
  have htable : m.mesh.table.size = m.mesh.size := by
    rw [Mesh.table, Array.size_map, hsize]
  have henclosed : ∀ c : Int, r.front.contains c →
      Front.enclosed? m.mesh.table r.accepted c = some (r.isEnclosed m c) := by
    intro c hc
    obtain ⟨d, hd, rfl⟩ := hf c hc
    obtain ⟨b, hb, hopen⟩ := Front.exists_enclosed? (Mesh.mutual_table hu hsize)
      (hr.accepted.trans htable.symm) (htable ▸ hd)
    have hiff : b = false ↔ r.isEnclosed m (d : Int) = false := by
      rw [hopen, isEnclosed_eq_false]
      unfold Front.IsOpen
      simp only [Mesh.mem_getD_table]
      refine exists_congr fun k => and_congr_right fun hk => ?_
      have hlt : k < r.accepted.size := hr.accepted ▸ hu.lt_right hk
      simp [isAccepted, Array.getD, hlt]
    rw [hb]
    exact congrArg some (Bool.eq_iff_iff.mpr (by simpa using hiff.not))
  rw [Front.pruneTable_eq_ok fun c _ hc => Option.isSome_of_eq_some (henclosed c hc)]
  refine congrArg Except.ok (Front.prune_congr fun c _ hc => ?_)
  rw [henclosed c hc, Option.getD_some]

/-- Accepting a cell keeps the front exact: only the cell and its neighbours can become
enclosed. -/
theorem FrontExact.accept (h : r.FrontExact m.mesh) (hu : m.mesh.Undirected)
    (hr : r.Sized m.mesh.size) (e : Entry Nat α) (h' : IndexedHeap Nat α) :
    (r.accept m e h').FrontExact m.mesh := by
  let r0 : Run α := { r with considered := h', iterations := r.iterations + 1 }
  let r1 := r0.settle e.cell e.value
  have hsized : r0.Sized m.mesh.size := ⟨hr.solution, hr.state, hr.accepted⟩
  have hacc : ∀ d, r1.isAccepted d ↔ (e.cell = d ∧ e.cell < m.mesh.size) ∨ r.isAccepted d :=
    fun d => isAccepted_settle hsized
  refine frontExact_prune (r := r1) (fun c hc => ?_) fun d hd ho => ?_
  · rw [contains_settle, Bool.or_eq_true, beq_iff_eq] at hc
    rcases hc with rfl | hc
    · cases ho : r1.isEnclosed m (e.cell : Int) with
      | true => exact Or.inl ⟨List.mem_map_of_mem List.mem_cons_self, rfl⟩
      | false =>
        obtain ⟨b, hb, -⟩ := isEnclosed_eq_false.mp ho
        exact Or.inr ⟨e.cell, rfl, (hacc e.cell).mpr (Or.inl ⟨rfl, hu.lt_left hb⟩), ho⟩
    · obtain ⟨d, rfl, hd, b, hb, hbn⟩ := (h c).mp hc
      cases ho : r1.isEnclosed m (d : Int) with
      | true =>
        -- the neighbour that kept `d` on the front is the accepted cell
        have hb1 : r1.isAccepted b := by
          by_contra hn
          rw [isEnclosed_eq_false.mpr ⟨b, hb, by simpa using hn⟩] at ho
          cases ho
        obtain ⟨rfl, -⟩ := ((hacc b).mp hb1).resolve_right (by simp [hbn])
        exact Or.inl ⟨List.mem_map_of_mem (List.mem_cons_of_mem _ (hu.symm hb)), rfl⟩
      | false => exact Or.inr ⟨d, rfl, (hacc d).mpr (Or.inr hd), ho⟩
  · obtain ⟨b, hb, hbn⟩ := isEnclosed_eq_false.mp ho
    rw [contains_settle, Bool.or_eq_true, beq_iff_eq]
    refine ((hacc d).mp hd).imp (fun hd => congrArg Int.ofNat hd.1) fun hd => ?_
    refine h.contains_iff.mpr ⟨hd, b, hb, Bool.eq_false_iff.mpr fun hb => ?_⟩
    rw [(hacc b).mpr (Or.inr hb)] at hbn
    cases hbn

/-! ### A run -/

variable [Scalar α]

/-- What the front depends on is left alone while cells are considered and relaxed. -/
theorem left_consider (r : Run α) (c : Nat) :
    (left (r.consider m c)).front = r.front ∧ (left (r.consider m c)).accepted = r.accepted := by
  unfold consider
  split
  · exact ⟨rfl, rfl⟩
  · split
    · exact ⟨rfl, rfl⟩
    · exact ⟨rfl, rfl⟩

theorem left_relax (r : Run α) (c : Nat) :
    (left (r.relax m c)).front = r.front ∧ (left (r.relax m c)).accepted = r.accepted := by
  unfold relax
  split
  · exact ⟨rfl, rfl⟩
  · split
    · exact ⟨rfl, rfl⟩
    · split
      · split
        · exact ⟨rfl, rfl⟩
        · exact ⟨rfl, rfl⟩
      · exact ⟨rfl, rfl⟩

theorem FrontExact.considerFar (h : r.FrontExact mesh) (cs : List Nat) :
    (left (r.considerFar m cs)).FrontExact mesh := by
  refine left_foldlM (fun r c hr => ?_) h
  split
  · obtain ⟨hf, ha⟩ := left_consider (m := m) r c
    exact hr.congr hf ha
  · exact hr

theorem FrontExact.relaxAll (h : r.FrontExact mesh) (cs : List Nat) :
    (left (r.relaxAll m cs)).FrontExact mesh := by
  refine left_foldlM (fun r c hr => ?_) h
  obtain ⟨hf, ha⟩ := left_relax (m := m) r c
  exact hr.congr hf ha

theorem FrontExact.step (h : r.FrontExact m.mesh) (hu : m.mesh.Undirected)
    (hr : r.Sized m.mesh.size) : (left (r.step m)).FrontExact m.mesh := by
  unfold Run.step
  split
  · exact h
  · rename_i e h' _
    exact left_bind ((h.accept hu hr e h').considerFar _) fun r hr => hr.relaxAll _

theorem frontExact_seed {starts : List Nat} (hstarts : ∀ c ∈ starts, c < m.mesh.size) :
    (left ((fresh m.mesh.size : Run α).seed m starts)).FrontExact m.mesh := by
  have hfull : (starts.foldl (fun r c => r.settle c Scalar.zero)
      (fresh m.mesh.size : Run α)).FrontFull :=
    frontFull_foldl_settle (sized_fresh _) (frontFull_fresh _) hstarts
  exact (hfull.prune (m := m)).considerFar _

end Run

namespace Solver

variable [Scalar α] {memory : Memory} {g : CellGrid α} {mesh : Mesh α} {s : Solver α}
  {metric : NdArray α} {starts : Json} {field : MetricField α} {cells : List Nat}

/-- In every run that a solve shows after a step or leaves, at its end or where it stopped, the
front is exact, and an update of a cell which is not accepted finds there the accepted neighbours
of the cell. -/
theorem front_exact (hg : Mesh.ofGrid memory g = .ok mesh) (hs : Reachable mesh s)
    (hin : s.checkInput metric starts = .ok (field, cells)) (r : Run α)
    (hr : r = (s.solve metric starts).1.run ∨ r ∈ s.trace metric starts) :
    r.FrontExact mesh ∧ ∀ c, r.isAccepted c = false →
      Medium.upwind ⟨mesh, field⟩ r.front c = (mesh.around c).filter r.isAccepted := by
  obtain ⟨rfl, hsized⟩ := hs.sized
  have hu := Mesh.undirected_of_ofGrid hg
  have hinv : ∀ r : Run α, r.Sized s.mesh.size ∧ r.FrontExact s.mesh →
      (Run.left (r.step ⟨s.mesh, field⟩)).Sized s.mesh.size ∧
        (Run.left (r.step ⟨s.mesh, field⟩)).FrontExact s.mesh :=
    fun r hr => ⟨hr.1.step, hr.2.step (m := ⟨s.mesh, field⟩) hu hr.1⟩
  have hseed : (Run.left (s.run.reset.seed ⟨s.mesh, field⟩ cells)).Sized s.mesh.size ∧
      (Run.left (s.run.reset.seed ⟨s.mesh, field⟩ cells)).FrontExact s.mesh := by
    rw [hsized.reset]
    exact ⟨(Run.sized_fresh _).seed cells,
      Run.frontExact_seed (m := ⟨s.mesh, field⟩) (starts_of_checkInput hin).2⟩
  obtain ⟨hleft, htrace⟩ := Run.left_solve s.bound hseed hinv
  rw [run_solve hin, trace_eq hin] at hr
  have hexact : r.FrontExact s.mesh := by
    rcases hr with rfl | hr
    · exact hleft.2
    · exact (htrace r hr).2
  exact ⟨hexact, fun c hc => hexact.upwind_eq hu hc field⟩

theorem front_exact_sample :
    ((new sampleMesh none).solve sampleMetric sampleStarts).1.run.FrontExact sampleMesh :=
  (front_exact ofGrid_sampleGrid (.new none) checkInput_sample _ (Or.inl rfl)).1

end Solver

end Eikonal
