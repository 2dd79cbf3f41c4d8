import Eikonal.Proofs.FastMarching.Record
import Eikonal.Proofs.Heap.Order

/-! Live and outdated entries. Every node that is not known but has a value waits in the queue with
this value, all other entries of the queue are skipped in their turn, and no value was ever pushed
for a node that is below the one it has. So entries that are left over in the queue do no harm. -/

namespace Eikonal.FastMarching

open OrderedScalar

variable {α : Type} [Scalar α] [OrderedScalar α]

/-! ### The order of the queue -/

/-- No entry of the queue comes before an earlier one. -/
def InOrder (q : List (Entry Nat α)) : Prop := q.Pairwise fun a b => b.before a = false

theorem InOrder.enqueue {q : List (Entry Nat α)} {e : Entry Nat α} (hq : InOrder q)
    (hnum : ∀ d ∈ q, Scalar.isNaN d.value = false) (he : Scalar.isNaN e.value = false) :
    InOrder (enqueue e q) := by
  induction q with
  | nil => exact List.pairwise_singleton _ _
  | cons d q ih =>
    obtain ⟨hd, hrest⟩ := List.pairwise_cons.mp hq
    obtain ⟨hdnum, hqnum⟩ := List.forall_mem_cons.mp hnum
    unfold FastMarching.enqueue
    split
    · rename_i hde
      refine List.pairwise_cons.mpr ⟨fun b hb => ?_, ih hrest hqnum⟩
      rcases List.mem_cons.mp ((enqueue_perm e q).mem_iff.mp hb) with rfl | hb
      · exact Entry.before_asymm hde
      · exact hd b hb
    · rename_i hde
      rw [Bool.not_eq_true] at hde
      refine List.pairwise_cons.mpr ⟨fun b hb => ?_, hq⟩
      rcases List.mem_cons.mp hb with rfl | hb
      · exact hde
      · exact Entry.not_before_trans he hdnum (hqnum b hb) hde (hd b hb)

theorem inOrder_begin (seeds : Array Bool) : InOrder (begin seeds : March α).queue := by
  refine List.Pairwise.map (R := fun k n => k ≤ n) _ (fun k n hkn => ?_)
    (List.Pairwise.filter _ List.pairwise_le_range)
  refine (Entry.not_before_iff Scalar.isNaN_zero Scalar.isNaN_zero).mpr
    ⟨Scalar.le_refl Scalar.isNaN_zero, fun _ => ?_⟩
  exact Nat.isLE_compare.mpr hkn

/-- Only an entry that no other one comes before may be taken. -/
def First : Rule α := fun e rest => ∀ d ∈ rest, d.before e = false

/-! ### Live entries -/

namespace Stage

/-- How the entries of a march stand to the values of the nodes. -/
structure Live (p : Stage α) : Prop where
  number : ∀ k, Scalar.isNaN (p.march.valueOf k) = false
  below : ∀ e ∈ p.queued, Scalar.lt e.value Scalar.inf
  inOrder : InOrder p.march.queue
  /-- An entry has the value of its node, unless the value has fallen since. -/
  current : ∀ e ∈ p.queued,
    e.value = p.march.valueOf e.cell ∨ Scalar.lt (p.march.valueOf e.cell) e.value
  pushed : ∀ k, Scalar.lt (p.march.valueOf k) Scalar.inf → ⟨p.march.valueOf k, k⟩ ∈ p.queued
  /-- A node that is not known waits with its value, if it has one. -/
  waiting : ∀ k, p.march.isKnown k = false → Scalar.lt (p.march.valueOf k) Scalar.inf →
    ⟨p.march.valueOf k, k⟩ ∈ p.march.queue
  arrived : ∀ k ∈ p.settled, Scalar.lt (p.march.valueOf k) Scalar.inf

variable {f : Field α} {rule : Rule α} {seeds : Array Bool} {p q : Stage α} {k n : Nat}
  {ks : List Nat} {t : α} {e : Entry Nat α} {l r : List (Entry Nat α)}

theorem live_start (seeds : Array Bool) : (start seeds : Stage α).Live := by
  have hvalue : ∀ k, (start seeds : Stage α).march.valueOf k =
      if seeds.getD k false then Scalar.zero else Scalar.inf := valueOf_begin seeds
  have hseed : ∀ k, Scalar.lt ((start seeds : Stage α).march.valueOf k) Scalar.inf →
      ⟨(start seeds : Stage α).march.valueOf k, k⟩ ∈ (begin seeds : March α).queue := by
    intro k hk
    rw [hvalue] at hk ⊢
    split at hk
    · rename_i hs
      rw [if_pos hs]
      exact mem_queue_begin.mpr ⟨hs, rfl⟩
    · rw [Scalar.lt_irrefl] at hk
      cases hk
  refine ⟨fun k => ?_, fun e he => ?_, inOrder_begin seeds, fun e he => ?_, hseed,
    fun k _ => hseed k, fun k hk => by cases hk⟩
  · rw [hvalue]
    split <;> simp
  · rw [(mem_queue_begin.mp he).2]
    exact zero_lt_inf
  · obtain ⟨hs, hv⟩ := mem_queue_begin.mp he
    rw [hvalue, if_pos hs]
    exact Or.inl hv

namespace Live

theorem current_le (hp : p.Live) (he : e ∈ p.queued) :
    Scalar.le (p.march.valueOf e.cell) e.value := by
  rcases hp.current e he with h | h
  · rw [h]
    exact Scalar.le_refl (hp.number _)
  · exact Scalar.le_of_lt h

omit [OrderedScalar α] in
/-- An entry that is not skipped is the one that its node waits with. -/
theorem eq_of_not_stale (hp : p.Live) (he : e ∈ p.queued) (hs : p.march.isStale e = false) :
    e = ⟨p.march.valueOf e.cell, e.cell⟩ := by
  obtain ⟨v, k⟩ := e
  rcases hp.current _ he with h | h
  · exact congrArg (Entry.mk · k) h
  · rw [(March.isStale_eq_false.mp hs).2] at h
    cases h

theorem number_of_mem (hp : p.Live) (he : e ∈ p.queued) : Scalar.isNaN e.value = false :=
  Scalar.isNaN_of_lt_inf (hp.below e he)

omit [Scalar α] [OrderedScalar α] in
theorem mem_queued (hr : p.Recorded seeds) (he : e ∈ p.march.queue) : e ∈ p.queued :=
  hr.conserved.mem_iff.mpr (List.mem_append_right _ he)

omit [Scalar α] [OrderedScalar α] in
theorem mem_left {d : Entry Nat α} (hq : p.march.queue = l ++ e :: r) (hd : d ∈ p.march.queue)
    (hne : d ≠ e) : d ∈ l ++ r := by
  rw [hq, List.mem_append, List.mem_cons] at hd
  exact List.mem_append.mpr (hd.imp_right fun h => h.resolve_left hne)

omit [OrderedScalar α] in
theorem inOrder_left (hp : p.Live) (hq : p.march.queue = l ++ e :: r) : InOrder (l ++ r) :=
  hp.inOrder.sublist (by rw [hq]; simp)

theorem skip (hp : p.Live) (hq : p.march.queue = l ++ e :: r) (hs : p.march.isStale e) :
    (p.take e (l ++ r)).Live := by
  refine { hp with inOrder := hp.inOrder_left hq, waiting := fun k hk hlt => ?_ }
  -- what an unknown node waits with is not skipped
  have hlive : p.march.isStale ⟨p.march.valueOf k, k⟩ = false :=
    March.isStale_eq_false.mpr ⟨hk, Scalar.lt_irrefl _⟩
  refine mem_left hq (hp.waiting k hk hlt) fun (heq : ⟨p.march.valueOf k, k⟩ = e) => ?_
  rw [← heq, hlive] at hs
  cases hs

theorem settle (hp : p.Live) (hr : p.Recorded seeds) (hq : p.march.queue = l ++ e :: r) :
    ((p.take e (l ++ r)).settle f e.cell).Live := by
  have he : e ∈ p.queued := mem_queued hr (by simp [hq])
  refine { hp with
    inOrder := hp.inOrder_left hq, waiting := fun k hk hlt => ?_, arrived := fun k hk => ?_ }
  · rw [isKnown_settle, isKnown_take, Bool.or_eq_false_iff, decide_eq_false_iff_not] at hk
    exact mem_left hq (hp.waiting k hk.2 hlt) fun heq => hk.1 (congrArg Entry.cell heq)
  · rcases List.mem_append.mp hk with hk | hk
    · exact hp.arrived k hk
    · rw [List.mem_singleton.mp hk]
      exact Scalar.lt_of_le_of_lt (hp.current_le he) (hp.below e he)

theorem lower (hp : p.Live) (hr : p.Recorded seeds) (hn : p.march.isKnown n = false)
    (hlt : Scalar.lt t (p.march.valueOf n)) : (p.lower n t ks).Live := by
  have hvalue : ∀ k, (p.lower n t ks).march.valueOf k = if k = n then t else p.march.valueOf k :=
    hr.valueOf_lower hn
  have htnum : Scalar.isNaN t = false := not_nan_left (Scalar.le_of_lt hlt)
  constructor
  case number =>
    intro k
    rw [hvalue]
    split
    · exact htnum
    · exact hp.number k
  case below =>
    intro e he
    rcases List.mem_append.mp he with he | he
    · exact hp.below e he
    · rw [List.mem_singleton.mp he]
      exact Scalar.lt_of_lt_of_le hlt (le_inf (hp.number n))
  case inOrder => exact hp.inOrder.enqueue (fun d hd => hp.number_of_mem (mem_queued hr hd)) htnum
  case current =>
    intro e he
    rw [hvalue]
    rcases List.mem_append.mp he with he | he
    · split
      · rename_i hen
        -- the entries of the node that are older than this one are outdated now
        rw [← hen] at hlt
        exact Or.inr (Scalar.lt_of_lt_of_le hlt (hp.current_le he))
      · exact hp.current e he
    · rw [List.mem_singleton.mp he, if_pos rfl]
      exact Or.inl rfl
  case pushed =>
    intro k hk
    rw [hvalue] at hk ⊢
    split at hk
    · rename_i hkn
      rw [if_pos hkn, hkn]
      exact List.mem_append_right _ (List.mem_singleton.mpr rfl)
    · rename_i hkn
      rw [if_neg hkn]
      exact List.mem_append_left _ (hp.pushed k hk)
  case waiting =>
    intro k hk hlt
    rw [hvalue] at hlt ⊢
    refine (enqueue_perm _ _).mem_iff.mpr ?_
    split at hlt
    · rename_i hkn
      rw [if_pos hkn, hkn]
      exact List.mem_cons_self
    · rename_i hkn
      rw [if_neg hkn]
      exact List.mem_cons_of_mem _ (hp.waiting k hk hlt)
  case arrived =>
    intro k hk
    rw [hvalue, if_neg (hr.ne_of_mem hk hn)]
    exact hp.arrived k hk

theorem next (hp : p.Live) (hr : p.Recorded seeds) (h : Next f rule p q) : q.Live := by
  cases h with
  | skip htodo hq hrule hs => exact hp.skip hq hs
  | settle htodo hq hrule hs => exact hp.settle hr hq
  | keep htodo ho => exact { hp with }
  | lower htodo ho =>
    obtain ⟨hn, hlt, -⟩ := March.offer_eq_some ho
    exact hp.lower hr hn hlt

omit [OrderedScalar α] in
theorem first_of_head (hp : p.Live) (hq : p.march.queue = e :: r) :
    First e r := by
  have := hp.inOrder
  rw [hq] at this
  exact (List.pairwise_cons.mp this).1

omit [OrderedScalar α] in
theorem not_lt_inf_of_done (hp : p.Live) (hd : p.Done) (hk : p.march.isKnown k = false) :
    Scalar.lt (p.march.valueOf k) Scalar.inf = false := by
  rw [Bool.eq_false_iff]
  intro hlt
  have := hp.waiting k hk hlt
  rw [hd.2] at this
  cases this

theorem leads (hp : p.Live) (hr : p.Recorded seeds) (h : Leads f rule p q) : q.Live :=
  (h.invariant (I := fun p => p.Recorded seeds ∧ p.Live)
    (fun _ _ hp h => ⟨hp.1.next h, hp.2.next hp.1 h⟩) ⟨hr, hp⟩).2

end Live

theorem ends_first (f : Field α) (seeds : Array Bool) :
    Ends f First Done (start seeds) ((begin seeds).advance f) :=
  ends_advance (p := start seeds) (I := fun p => p.Recorded seeds ∧ p.Live)
    (fun _ _ hp h => ⟨hp.1.next h, hp.2.next hp.1 h⟩) (fun _ _ _ hp hq => hp.2.first_of_head hq)
    ⟨recorded_start seeds, live_start seeds⟩ rfl

end Stage

end Eikonal.FastMarching
