import Eikonal.Proofs.Heap.Order
import Eikonal.Proofs.Solver.AcceptedFront
import Eikonal.Proofs.Solver.Tentative
import Mathlib.Data.Finset.Card

/-! Coherent runs. The states, the values, the heap and the order of a run tell the same story; the
parts of a step keep it so, and here is all that each of them changes. What the front gives a cell
depends on accepted values only, so it is the same before and after other cells are considered or
relaxed. -/

namespace Eikonal.Run

variable {α : Type} [Scalar α]

/-- The value of a cell; infinity for a cell that does not exist. -/
def valueOf (r : Run α) (c : Nat) : α := r.solution.getD c Scalar.inf

/-- The value that the front as it is gives a cell. -/
def arrival (m : Medium α) (r : Run α) (c : Nat) : Option α := m.tentative? r.front r.solution c

/-- The value of a cell after a relaxation. -/
def relaxed (m : Medium α) (r : Run α) (c : Nat) : α :=
  Scalar.lower (r.valueOf c) ((r.arrival m c).getD Scalar.inf)

/-- Whether a relaxation lowers the value of a cell. -/
def falls (m : Medium α) (r : Run α) (c : Nat) : Bool :=
  Scalar.lt ((r.arrival m c).getD Scalar.inf) (r.valueOf c)

/-- Whether a cell is far and the front gives it no value. -/
def isStuck (m : Medium α) (r : Run α) (c : Nat) : Bool :=
  r.stateOf c = .far && (r.arrival m c).isNone

/-- A run over `n` cells whose parts fit together. -/
structure Coherent (n : Nat) (r : Run α) : Prop where
  sized : r.Sized n
  accepted_iff : ∀ c, c < n → (r.isAccepted c ↔ r.stateOf c = .accepted)
  front_accepted : ∀ c : Nat, r.front.contains c → r.isAccepted c
  valid : r.considered.Valid
  key : ∀ c, r.considered.key? c = if r.stateOf c = .considered then some (r.valueOf c) else none
  far : ∀ c, r.stateOf c = .far → r.valueOf c = Scalar.inf
  nodup : r.order.toList.Nodup
  mem_order : ∀ c, c ∈ r.order ↔ r.isAccepted c

/-- The run `r'` is `r` but for the cells in `p`, which are considered with the values `f` now, and
for `k` relaxations more. -/
structure Reassigned (n : Nat) (r : Run α) (p : Nat → Prop) (f : Nat → α) (k : Nat) (r' : Run α) :
    Prop where
  coherent : r'.Coherent n
  front : r'.front = r.front
  accepted : r'.accepted = r.accepted
  order : r'.order = r.order
  iterations : r'.iterations = r.iterations
  relaxations : r'.relaxations = r.relaxations + k
  inside : ∀ d, p d → r'.stateOf d = .considered ∧ r'.valueOf d = f d
  outside : ∀ d, ¬p d → r'.stateOf d = r.stateOf d ∧ r'.valueOf d = r.valueOf d

variable {m : Medium α} {n k l : Nat} {r r' r'' : Run α} {c d : Nat} {v : α} {p q : Nat → Prop}
  {f f' : Nat → α} {h' : IndexedHeap Nat α}

/-! ### Reading a coherent run -/

omit [Scalar α] in
theorem Sized.lt_of_stateOf (h : r.Sized n) (hc : r.stateOf c ≠ .accepted) : c < n := by
  by_contra hn
  refine hc ?_
  unfold stateOf
  simp [Array.getD, h.state, hn]

omit [Scalar α] in
theorem Sized.lt_of_isAccepted (h : r.Sized n) (hc : r.isAccepted c) : c < n := by
  by_contra hn
  simp [isAccepted, Array.getD, h.accepted, hn] at hc

namespace Coherent

theorem not_accepted (h : r.Coherent n) (hc : r.stateOf c ≠ .accepted) :
    r.isAccepted c = false := by
  rw [Bool.eq_false_iff]
  exact fun ha => hc ((h.accepted_iff c (h.sized.lt_of_stateOf hc)).mp ha)

theorem stateOf_of_accepted (h : r.Coherent n) (hc : r.isAccepted c) : r.stateOf c = .accepted :=
  (h.accepted_iff c (h.sized.lt_of_isAccepted hc)).mp hc

theorem key_considered (h : r.Coherent n) (hc : r.stateOf c = .considered) :
    r.considered.key? c = some (r.valueOf c) := by
  rw [h.key c, if_pos hc]

theorem key_none (h : r.Coherent n) (hc : r.stateOf c ≠ .considered) :
    r.considered.key? c = none := by
  rw [h.key c, if_neg hc]

theorem key?_eq_some (h : r.Coherent n) :
    r.considered.key? c = some v ↔ r.stateOf c = .considered ∧ r.valueOf c = v := by
  rw [h.key c]
  split
  · rename_i hc
    simp [hc]
  · rename_i hc
    simp [hc]

theorem mem_entries (h : r.Coherent n) {e : Entry Nat α} :
    e ∈ r.considered.entries ↔ r.stateOf e.cell = .considered ∧ r.valueOf e.cell = e.value := by
  rw [← h.key?_eq_some]
  exact h.valid.consistent.key?_eq_some.symm

theorem isNaN_valueOf (h : r.Coherent n) (hc : r.stateOf c = .considered) :
    Scalar.isNaN (r.valueOf c) = false :=
  h.valid.numeric ⟨r.valueOf c, c⟩ (h.mem_entries.mpr ⟨hc, rfl⟩)

theorem isEmpty_iff (h : r.Coherent n) :
    r.considered.isEmpty ↔ ∀ c, r.stateOf c ≠ .considered := by
  unfold IndexedHeap.isEmpty
  constructor
  · intro he c hc
    have := h.mem_entries (e := ⟨r.valueOf c, c⟩) |>.mpr ⟨hc, rfl⟩
    simp [Array.isEmpty_iff.mp he] at this
  · intro hnone
    rw [Array.isEmpty_iff, Array.eq_empty_iff_forall_not_mem]
    exact fun e he => hnone e.cell (h.mem_entries.mp he).1

/-- Runs with the same states have as many entries. -/
theorem size_considered_eq (h : r.Coherent n) (h' : r'.Coherent k)
    (hs : ∀ c, r'.stateOf c = r.stateOf c) : r'.considered.size = r.considered.size := by
  refine h.valid.consistent.size_eq h'.valid.consistent fun c => ?_
  rw [h'.key c, h.key c, hs c]
  split <;> rfl

theorem isEmpty_considered_eq (h : r.Coherent n) (h' : r'.Coherent k)
    (hs : ∀ c, r'.stateOf c = r.stateOf c) : r'.considered.isEmpty = r.considered.isEmpty := by
  rw [Bool.eq_iff_iff, h.isEmpty_iff, h'.isEmpty_iff]
  simp only [hs]

end Coherent

/-- What the front gives a cell depends on the front and the accepted values. -/
theorem Coherent.arrival_congr (h : r.Coherent n) (hf : r'.front = r.front)
    (hv : ∀ d, r.isAccepted d → r'.valueOf d = r.valueOf d) : r'.arrival m = r.arrival m := by
  funext c
  refine Medium.tentative?_congr (fun d _ => by rw [hf]) fun d _ hd => ?_
  exact hv d (h.front_accepted d hd)

/-! ### Considered cells with new values -/

namespace Reassigned

theorem refl (h : r.Coherent n) (hp : ∀ d, ¬p d) : Reassigned n r p f 0 r :=
  ⟨h, rfl, rfl, rfl, rfl, rfl, fun d hd => absurd hd (hp d), fun _ _ => ⟨rfl, rfl⟩⟩

theorem congr (h : Reassigned n r p f k r') (hp : ∀ d, p d ↔ q d) (hf : ∀ d, p d → f d = f' d)
    (hk : k = l) : Reassigned n r q f' l r' := by
  subst hk
  refine ⟨h.coherent, h.front, h.accepted, h.order, h.iterations, h.relaxations, ?_, ?_⟩
  · intro d hd
    rw [← hp] at hd
    rw [← hf d hd]
    exact h.inside d hd
  · intro d hd
    rw [← hp] at hd
    exact h.outside d hd

/-- Where two changes meet, the later one counts. -/
theorem trans (h1 : Reassigned n r p f k r') (h2 : Reassigned n r' q f' l r'') (g : Nat → α)
    (hp : ∀ d, p d → ¬q d → f d = g d) (hq : ∀ d, q d → f' d = g d) :
    Reassigned n r (fun d => p d ∨ q d) g (k + l) r'' := by
  refine ⟨h2.coherent, h2.front.trans h1.front, h2.accepted.trans h1.accepted,
    h2.order.trans h1.order, h2.iterations.trans h1.iterations, ?_, ?_, ?_⟩
  · rw [h2.relaxations, h1.relaxations, Nat.add_assoc]
  · intro d hd
    by_cases hqd : q d
    · rw [← hq d hqd]
      exact h2.inside d hqd
    · have hpd := hd.resolve_right hqd
      obtain ⟨hs, hv⟩ := h1.inside d hpd
      obtain ⟨hs', hv'⟩ := h2.outside d hqd
      exact ⟨hs'.trans hs, (hv'.trans hv).trans (hp d hpd hqd)⟩
  · intro d hd
    rw [not_or] at hd
    obtain ⟨hs, hv⟩ := h1.outside d hd.1
    obtain ⟨hs', hv'⟩ := h2.outside d hd.2
    exact ⟨hs'.trans hs, hv'.trans hv⟩

theorem isAccepted_eq (h : Reassigned n r p f k r') (d : Nat) :
    r'.isAccepted d = r.isAccepted d := by
  unfold isAccepted
  rw [h.accepted]

theorem valueOf_accepted (h : Reassigned n r p f k r') (hd : r.isAccepted d) :
    r'.valueOf d = r.valueOf d := by
  by_cases hp : p d
  · rw [← h.isAccepted_eq, h.coherent.not_accepted (by rw [(h.inside d hp).1]; decide)] at hd
    cases hd
  · exact (h.outside d hp).2

theorem arrival_eq (h : Reassigned n r p f k r') (hr : r.Coherent n) :
    r'.arrival m = r.arrival m :=
  hr.arrival_congr h.front fun _ hd => h.valueOf_accepted hd

end Reassigned

/-- One cell that is not accepted is entered into the heap with a value, or gets another one. -/
theorem Coherent.reassign (h : r.Coherent n) (hc : r.stateOf c ≠ .accepted) (hv : h'.Valid)
    (hd : r.considered.Differs c (some v) h') (k : Nat) :
    Reassigned n r (· = c) (fun _ => v) k
      { r with
        considered := h'
        state := r.state.setIfInBounds c .considered
        solution := r.solution.setIfInBounds c v
        relaxations := r.relaxations + k } := by
  have hlt := h.sized.lt_of_stateOf hc
  let r1 : Run α :=
    { r with
      considered := h'
      state := r.state.setIfInBounds c .considered
      solution := r.solution.setIfInBounds c v
      relaxations := r.relaxations + k }
  have hstate : ∀ d, r1.stateOf d = if d = c then .considered else r.stateOf d := fun d =>
    getD_setIfInBounds_of_lt (by rwa [h.sized.state]) d _ _
  have hvalue : ∀ d, r1.valueOf d = if d = c then v else r.valueOf d := fun d =>
    getD_setIfInBounds_of_lt (by rwa [h.sized.solution]) d _ _
  have hsized : r1.Sized n :=
    ⟨by simp [r1, h.sized.solution], by simp [r1, h.sized.state], h.sized.accepted⟩
  have hcoherent : r1.Coherent n := by
    refine ⟨hsized, ?_, h.front_accepted, hv, ?_, ?_, h.nodup, h.mem_order⟩
    · intro d hd
      show r.isAccepted d ↔ _
      rw [hstate]
      split
      · rename_i hdc
        subst hdc
        simp [h.not_accepted hc]
      · exact h.accepted_iff d hd
    · intro d
      rw [hstate, hvalue]
      by_cases hdc : d = c
      · subst hdc
        simp [r1, hd.key?_self]
      · simp only [if_neg hdc]
        rw [← h.key d]
        exact hd.key?_ne h.valid.consistent hdc
    · intro d hd
      rw [hstate] at hd
      rw [hvalue]
      by_cases hdc : d = c
      · simp [hdc] at hd
      · rw [if_neg hdc] at hd ⊢
        exact h.far d hd
  refine ⟨hcoherent, rfl, rfl, rfl, rfl, rfl, fun d hd => ?_, fun d hd => ?_⟩
  · exact ⟨(hstate d).trans (if_pos hd), (hvalue d).trans (if_pos hd)⟩
  · exact ⟨(hstate d).trans (if_neg hd), (hvalue d).trans (if_neg hd)⟩

/-- A cell that has become considered was not stuck, as it got a value, and is not stuck, as it is
no longer far; nothing has changed for the others. -/
theorem Reassigned.isStuck_eq (h1 : Reassigned n r (· = c) f k r') (h : r.Coherent n)
    (hv : r.arrival m c = some v) : r'.isStuck m = r.isStuck m := by
  funext d
  unfold isStuck
  rw [h1.arrival_eq h]
  by_cases hdc : d = c
  · subst hdc
    simp [hv]
  · rw [(h1.outside d hdc).1]

theorem considerFar_cons_of_ne {cs : List Nat} (hc : r.stateOf c ≠ .far) :
    r.considerFar m (c :: cs) = r.considerFar m cs := by
  unfold Run.considerFar
  rw [List.foldlM_cons, if_neg hc]
  rfl

theorem considerFar_cons_of_ok {cs : List Nat} (hc : r.stateOf c = .far)
    (h : r.consider m c = .ok r') : r.considerFar m (c :: cs) = r'.considerFar m cs := by
  unfold Run.considerFar
  rw [List.foldlM_cons, if_pos hc, h]
  rfl

theorem considerFar_cons_of_none {cs : List Nat} (hc : r.stateOf c = .far)
    (h : r.arrival m c = none) : r.considerFar m (c :: cs) = .error ⟨.unreached c, r⟩ := by
  unfold Run.considerFar Run.consider
  rw [List.foldlM_cons, if_pos hc, show m.tentative? r.front r.solution c = none from h]
  rfl

section Order

variable [OrderedScalar α]

theorem Coherent.consider (h : r.Coherent n) (hc : r.stateOf c = .far)
    (hv : r.arrival m c = some v) :
    ∃ r', r.consider m c = .ok r' ∧ Reassigned n r (· = c) (fun _ => v) 0 r' := by
  have hfar : r.stateOf c ≠ .considered := by rw [hc]; decide
  obtain ⟨h', hpush, hvalid, hd⟩ :=
    h.valid.push (h.key_none hfar) (Medium.isNaN_of_tentative? hv)
  refine ⟨_, ?_, h.reassign (by rw [hc]; decide) hvalid hd 0⟩
  unfold Run.consider
  rw [show m.tentative? r.front r.solution c = some v from hv]
  simp only [hpush]
  rfl

/-- The far cells among `cs` become considered, with the values that the front gives them, up to the
first cell that is stuck. -/
theorem Coherent.considerFar (h : r.Coherent n) (cs : List Nat) :
    ∃ r', Reassigned n r (fun d => d ∈ cs.takeWhile (fun c => !r.isStuck m c) ∧ r.stateOf d = .far)
        (fun d => (r.arrival m d).getD Scalar.inf) 0 r' ∧
      r.considerFar m cs =
        match cs.find? (r.isStuck m) with
        | none => .ok r'
        | some c => .error ⟨.unreached c, r'⟩ := by
  induction cs generalizing r with
  | nil => exact ⟨r, .refl h (by simp), rfl⟩
  | cons c cs ih =>
    by_cases hc : r.stateOf c = .far
    · cases ha : r.arrival m c with
      | none =>
        have hstuck : r.isStuck m c := by simp [isStuck, hc, ha]
        refine ⟨r, .refl h (by simp [hstuck]), ?_⟩
        rw [List.find?_cons_of_pos hstuck, considerFar_cons_of_none hc ha]
      | some v =>
        obtain ⟨r1, hr1, h1⟩ := h.consider hc ha
        have hstuck : r.isStuck m c = false := by simp [isStuck, ha]
        obtain ⟨r', h2, hr'⟩ := ih h1.coherent
        rw [h1.isStuck_eq h ha] at h2 hr'
        refine ⟨r', ?_, ?_⟩
        · have h3 := h1.trans h2 (fun d => (r.arrival m d).getD Scalar.inf)
            (fun d hd _ => by rw [hd, ha]; rfl) (fun d _ => by rw [h1.arrival_eq h])
          refine h3.congr (fun d => ?_) (fun _ _ => rfl) rfl
          rw [List.takeWhile_cons_of_pos (by simp [hstuck]), List.mem_cons]
          by_cases hdc : d = c
          · subst hdc
            simp [hc]
          · simp [hdc, (h1.outside d hdc).1]
        · rw [List.find?_cons_of_neg (by simp [hstuck]), considerFar_cons_of_ok hc hr1, hr']
    · have hstuck : r.isStuck m c = false := by simp [isStuck, hc]
      obtain ⟨r', h1, hr'⟩ := ih h
      refine ⟨r', h1.congr (fun d => ?_) (fun _ _ => rfl) rfl, ?_⟩
      · rw [List.takeWhile_cons_of_pos (by simp [hstuck]), List.mem_cons]
        constructor
        · exact fun hd => ⟨Or.inr hd.1, hd.2⟩
        · rintro ⟨rfl | hd, hfar⟩
          · exact absurd hfar hc
          · exact ⟨hd, hfar⟩
      · rw [List.find?_cons_of_neg (by simp [hstuck]), considerFar_cons_of_ne hc, hr']

theorem Coherent.relax (h : r.Coherent n) (hc : r.stateOf c = .considered)
    (hv : r.arrival m c = some v) :
    ∃ r', r.relax m c = .ok r' ∧
      Reassigned n r (· = c) (r.relaxed m) (if r.falls m c then 1 else 0) r' := by
  have hkey : r.considered.key c = .ok (r.valueOf c) := by
    unfold IndexedHeap.key
    rw [h.key_considered hc]
  have hfalls : r.falls m c = Scalar.lt v (r.valueOf c) := by rw [falls, hv]; rfl
  have hrelaxed : r.relaxed m c = Scalar.lower (r.valueOf c) v := by rw [relaxed, hv]; rfl
  unfold Run.relax
  rw [show m.tentative? r.front r.solution c = some v from hv, hfalls]
  simp only [hkey]
  by_cases hlt : Scalar.lt v (r.valueOf c)
  · obtain ⟨h', hdec, hvalid, hd⟩ := h.valid.decreaseKey (h.key_considered hc)
      (Medium.isNaN_of_tentative? hv) (Scalar.not_lt_of_le (Scalar.le_of_lt hlt))
    have hstate : r.state.setIfInBounds c .considered = r.state := by
      have hlt := h.sized.lt_of_stateOf (by rw [hc]; decide)
      have hcs : c < r.state.size := by rw [h.sized.state]; exact hlt
      have hget : r.state[c] = .considered := by
        have := hc
        unfold stateOf at this
        simpa [Array.getD, hcs] using this
      rw [← hget, Array.setIfInBounds, dif_pos hcs, Array.set_getElem_self]
    have h1 := h.reassign (by rw [hc]; decide) hvalid hd 1
    rw [hstate] at h1
    simp only [hlt, if_true, hdec]
    refine ⟨_, rfl, h1.congr (fun _ => Iff.rfl) ?_ rfl⟩
    rintro d rfl
    rw [hrelaxed, Scalar.lower_eq_right hlt]
  · rw [if_neg hlt, if_neg hlt]
    refine ⟨r, rfl, h, rfl, rfl, rfl, rfl, rfl, ?_, fun _ _ => ⟨rfl, rfl⟩⟩
    rintro d rfl
    exact ⟨hc, by rw [hrelaxed, Scalar.lower_eq_left (by simpa using hlt)]⟩

/-- A relaxation leaves nothing to gain for its cell. -/
theorem Reassigned.falls_eq (h1 : Reassigned n r (· = c) (r.relaxed m) k r') (h : r.Coherent n)
    (d : Nat) : r'.falls m d = (decide (d ≠ c) && r.falls m d) := by
  unfold falls
  rw [h1.arrival_eq h]
  by_cases hdc : d = c
  · rw [(h1.inside d hdc).2, relaxed, Scalar.not_lt_lower]
    simp [hdc]
  · rw [(h1.outside d hdc).2]
    simp [hdc]

theorem Reassigned.relaxed_eq (h1 : Reassigned n r (· = c) (r.relaxed m) k r') (h : r.Coherent n)
    (d : Nat) : r'.relaxed m d = r.relaxed m d := by
  unfold relaxed
  rw [h1.arrival_eq h]
  by_cases hdc : d = c
  · rw [(h1.inside d hdc).2, relaxed, Scalar.lower_eq_left (Scalar.not_lt_lower _ _)]
  · rw [(h1.outside d hdc).2]

/-- Considered cells to which the front gives a value are relaxed, each of them once, however often
it is listed. -/
theorem Coherent.relaxAll (h : r.Coherent n) (cs : List Nat)
    (hcs : ∀ c ∈ cs, r.stateOf c = .considered ∧ ∃ v, r.arrival m c = some v) :
    ∃ r', r.relaxAll m cs = .ok r' ∧
      Reassigned n r (· ∈ cs) (r.relaxed m) (cs.toFinset.filter fun c => r.falls m c).card r' := by
  induction cs generalizing r with
  | nil => exact ⟨r, rfl, .refl h (by simp)⟩
  | cons c cs ih =>
    obtain ⟨⟨hc, v, hv⟩, hrest⟩ := List.forall_mem_cons.mp hcs
    obtain ⟨r1, hr1, h1⟩ := h.relax hc hv
    obtain ⟨r', hr', h2⟩ := ih h1.coherent fun d hd => by
      obtain ⟨hds, hdv⟩ := hrest d hd
      refine ⟨?_, by rwa [h1.arrival_eq h]⟩
      by_cases hdc : d = c
      · exact (h1.inside d hdc).1
      · exact (h1.outside d hdc).1.trans hds
    refine ⟨r', ?_, ?_⟩
    · rw [← hr']
      unfold Run.relaxAll
      rw [List.foldlM_cons, hr1]
      rfl
    · have h3 := h1.trans h2 (r.relaxed m) (fun _ _ _ => rfl) fun d _ => h1.relaxed_eq h d
      refine h3.congr (fun d => List.mem_cons.symm) (fun _ _ => rfl) ?_
      -- the cell counts once: it does not fall again
      have hfilter : (cs.toFinset.filter fun d => r1.falls m d) =
          (cs.toFinset.filter fun d => r.falls m d).erase c := by
        ext d
        simp only [h1.falls_eq h, Finset.mem_filter, Finset.mem_erase, Bool.and_eq_true,
          decide_eq_true_eq]
        tauto
      rw [hfilter, List.toFinset_cons, Finset.filter_insert]
      split
      · rw [← Finset.card_erase_add_one (Finset.mem_insert_self c _),
          Finset.erase_insert_eq_erase, Nat.add_comm]
      · rename_i hfalls
        rw [Finset.erase_eq_of_notMem (by simp [hfalls]), Nat.zero_add]

end Order

/-! ### Settled cells -/

/-- The run `r'` is `r` but for the cell `c`, which is accepted with the value `v` now. -/
structure Settled (n : Nat) (r : Run α) (c : Nat) (v : α) (r' : Run α) : Prop where
  coherent : r'.Coherent n
  isAccepted : ∀ d, r'.isAccepted d = (c == d || r.isAccepted d)
  stateOf : ∀ d, r'.stateOf d = if d = c then .accepted else r.stateOf d
  valueOf : ∀ d, r'.valueOf d = if d = c then v else r.valueOf d
  order : r'.order = r.order.push c
  relaxations : r'.relaxations = r.relaxations

theorem Coherent.settle (h : r.Coherent n) (hc : r.stateOf c ≠ .accepted) (hv : h'.Valid)
    (hkey : ∀ d, h'.key? d = if d = c then none else r.considered.key? d) (k : Nat) (v : α) :
    Settled n r c v (Run.settle c v { r with considered := h', iterations := k }) := by
  have hlt := h.sized.lt_of_stateOf hc
  let r0 : Run α := { r with considered := h', iterations := k }
  let r1 := r0.settle c v
  have hsized : r0.Sized n := ⟨h.sized.solution, h.sized.state, h.sized.accepted⟩
  have hacc : ∀ d, r1.isAccepted d = (c == d || r.isAccepted d) := by
    intro d
    rw [Bool.eq_iff_iff, isAccepted_settle hsized, Bool.or_eq_true, beq_iff_eq,
      and_iff_left hlt]
    rfl
  have hstate : ∀ d, r1.stateOf d = if d = c then .accepted else r.stateOf d := fun d =>
    getD_setIfInBounds_of_lt (by rwa [h.sized.state]) d _ _
  have hvalue : ∀ d, r1.valueOf d = if d = c then v else r.valueOf d := fun d =>
    getD_setIfInBounds_of_lt (by rwa [h.sized.solution]) d _ _
  refine ⟨⟨hsized.settle c v, ?_, ?_, hv, ?_, ?_, ?_, ?_⟩, hacc, hstate, hvalue, rfl, rfl⟩
  · intro d hd
    rw [hacc, hstate]
    by_cases hdc : d = c
    · simp [hdc]
    · have hne : (c == d) = false := beq_eq_false_iff_ne.mpr (Ne.symm hdc)
      rw [if_neg hdc, hne, Bool.false_or]
      exact h.accepted_iff d hd
  · intro d hd
    rw [hacc, Bool.or_eq_true, beq_iff_eq]
    have hfront : ((c : Int) == d || r.front.contains d) := by
      rw [← contains_settle (r := r0) (v := v)]
      exact hd
    rw [Bool.or_eq_true, beq_iff_eq] at hfront
    rcases hfront with he | hd
    · exact Or.inl (Int.ofNat_inj.mp he)
    · exact Or.inr (h.front_accepted d hd)
  · intro d
    show h'.key? d = _
    rw [hkey, hstate, hvalue]
    by_cases hdc : d = c
    · simp [hdc]
    · simp only [if_neg hdc]
      exact h.key d
  · intro d hd
    rw [hstate] at hd
    rw [hvalue]
    by_cases hdc : d = c
    · simp [hdc] at hd
    · rw [if_neg hdc] at hd ⊢
      exact h.far d hd
  · show (r.order.push c).toList.Nodup
    rw [Array.toList_push, List.nodup_append]
    refine ⟨h.nodup, List.nodup_singleton c, ?_⟩
    rintro a ha b hb rfl
    rw [List.mem_singleton] at hb
    subst hb
    have := (h.mem_order a).mp (Array.mem_def.mpr ha)
    rw [h.not_accepted hc] at this
    cases this
  · intro d
    show d ∈ r.order.push c ↔ _
    rw [Array.mem_push, h.mem_order, hacc, Bool.or_eq_true, beq_iff_eq, or_comm]
    exact or_congr_left eq_comm

theorem Coherent.prune (h : r.Coherent n) (cs : List Int) : (r.prune m cs).Coherent n := by
  refine ⟨⟨h.sized.solution, h.sized.state, h.sized.accepted⟩, h.accepted_iff, ?_, h.valid, h.key,
    h.far, h.nodup, h.mem_order⟩
  intro c hc
  have hc : (r.front.prune (r.isEnclosed m) cs).contains c := hc
  rw [Front.contains_prune, Bool.and_eq_true] at hc
  exact h.front_accepted c hc.1

theorem Settled.prune (h : Settled n r c v r') (cs : List Int) :
    Settled n r c v (r'.prune m cs) :=
  ⟨h.coherent.prune cs, h.isAccepted, h.stateOf, h.valueOf, h.order, h.relaxations⟩

/-- An entry that the heap gave up is accepted with its value. -/
theorem Coherent.accept (h : r.Coherent n) {e : Entry Nat α} (he : r.stateOf e.cell = .considered)
    (hv : h'.Valid) (hd : r.considered.Differs e.cell none h') :
    Settled n r e.cell e.value (r.accept m e h') := by
  refine (h.settle (by rw [he]; decide) hv ?_ _ _).prune _
  intro d
  split
  · rename_i hde
    rw [hde, hd.key?_self]
  · rename_i hde
    exact hd.key?_ne h.valid.consistent hde

theorem stateOf_fresh (hc : c < n) : (fresh n : Run α).stateOf c = .far := by
  simp [stateOf, fresh, Array.getD, hc]

theorem coherent_fresh (n : Nat) : (fresh n : Run α).Coherent n := by
  refine ⟨sized_fresh n, ?_, ?_, IndexedHeap.valid_empty, ?_, ?_, List.nodup_nil, ?_⟩
  · intro d hd
    rw [isAccepted_fresh, stateOf_fresh hd]
    decide
  · intro d hd
    simp [fresh] at hd
  · intro d
    rw [show (fresh n : Run α).considered.key? d = none from IndexedHeap.key?_empty d]
    by_cases hd : d < n
    · rw [stateOf_fresh hd, if_neg (by decide)]
    · simp [stateOf, fresh, Array.getD, hd]
  · intro d _
    by_cases hd : d < n <;> simp [valueOf, fresh, Array.getD, hd]
  · intro d
    rw [isAccepted_fresh]
    simp [fresh]

/-- The start phase accepts the start cells in their order, all with the value zero. -/
theorem Coherent.foldl_settle (h : r.Coherent n) {starts : List Nat} (hn : starts.Nodup)
    (hfar : ∀ c ∈ starts, r.stateOf c = .far) {r' : Run α}
    (hr' : r' = starts.foldl (fun r c => r.settle c Scalar.zero) r) :
    r'.Coherent n ∧
      (∀ d, r'.isAccepted d = (starts.contains d || r.isAccepted d)) ∧
      (∀ d, r'.stateOf d = if d ∈ starts then .accepted else r.stateOf d) ∧
      (∀ d, r'.valueOf d = if d ∈ starts then Scalar.zero else r.valueOf d) ∧
      r'.order = r.order ++ starts ∧ r'.iterations = r.iterations ∧
      r'.relaxations = r.relaxations := by
  induction starts generalizing r with
  | nil =>
    subst hr'
    exact ⟨h, by simp, by simp, by simp, by simp, rfl, rfl⟩
  | cons c cs ih =>
    obtain ⟨hc, hcs⟩ := List.forall_mem_cons.mp hfar
    obtain ⟨hcn, hn⟩ := List.nodup_cons.mp hn
    have hne : r.stateOf c ≠ .considered := by rw [hc]; decide
    have h1 : Settled n r c Scalar.zero (r.settle c Scalar.zero) := by
      refine h.settle (by rw [hc]; decide) h.valid ?_ r.iterations _
      intro d
      split
      · rename_i hdc
        rw [hdc, h.key_none hne]
      · rfl
    have hstill : ∀ d ∈ cs, (r.settle c Scalar.zero).stateOf d = .far := by
      intro d hd
      rw [h1.stateOf, if_neg (by rintro rfl; exact hcn hd)]
      exact hcs d hd
    obtain ⟨hco, hacc, hstate, hvalue, horder, hit, hrel⟩ := ih h1.coherent hn hstill hr'
    refine ⟨hco, ?_, ?_, ?_, ?_, hit, hrel⟩
    · intro d
      rw [hacc, h1.isAccepted, List.contains_cons, Bool.beq_comm, Bool.or_left_comm, Bool.or_assoc]
    · intro d
      rw [hstate, h1.stateOf]
      by_cases hdc : d = c <;> simp [hdc]
    · intro d
      rw [hvalue, h1.valueOf]
      by_cases hdc : d = c <;> simp [hdc]
    · rw [horder, h1.order]
      simp

end Eikonal.Run
