import Eikonal.Proofs.FastMarching.Stage
import Mathlib.Data.List.Perm.Subperm

/-! The record of a march. Whatever the values are, and in whatever order the entries are taken,
every node becomes known at most once, its value stays from then on, and besides the seeds only
nodes around a node that has become known are queued, four for each at most. -/

namespace Eikonal.FastMarching

variable {α : Type} [Scalar α]

section Begin

variable {seeds : Array Bool} {k : Nat} {e : Entry Nat α}

theorem isKnown_begin (seeds : Array Bool) (k : Nat) :
    (begin seeds : March α).isKnown k = decide (seeds.size ≤ k) := by
  by_cases hk : k < seeds.size
  · simp [March.isKnown, begin, hk]
  · simp [March.isKnown, begin, hk, Nat.not_lt.mp hk]

theorem valueOf_begin (seeds : Array Bool) (k : Nat) :
    (begin seeds : March α).valueOf k = if seeds.getD k false then Scalar.zero else Scalar.inf := by
  by_cases hk : k < seeds.size <;> simp [March.valueOf, begin, hk]

omit [Scalar α] in
theorem lt_of_seed (h : seeds.getD k false) : k < seeds.size := by
  by_contra hn
  simp [hn] at h

theorem mem_queue_begin : e ∈ (begin seeds : March α).queue ↔
    seeds.getD e.cell false ∧ e.value = Scalar.zero := by
  obtain ⟨v, k⟩ := e
  simp only [begin, List.mem_map, List.mem_filter, List.mem_range, Entry.mk.injEq]
  constructor
  · rintro ⟨n, ⟨-, hn⟩, rfl, rfl⟩
    exact ⟨hn, rfl⟩
  · rintro ⟨hk, rfl⟩
    exact ⟨k, ⟨lt_of_seed hk, hk⟩, rfl, rfl⟩

theorem length_queue_begin (seeds : Array Bool) :
    (begin seeds : March α).queue.length = seeds.count true := by
  have hitems : seeds.toList = (List.range seeds.size).map fun k => seeds.getD k false := by
    refine List.ext_getElem (by simp) fun k h _ => ?_
    simp [show k < seeds.size by simpa using h]
  rw [← Array.count_toList, hitems, List.count, List.countP_map, begin, List.length_map,
    ← List.countP_eq_length_filter]
  refine List.countP_congr fun k _ => ?_
  simp

end Begin

theorem March.isStale_eq_false {m : March α} {e : Entry Nat α} : m.isStale e = false ↔
    m.isKnown e.cell = false ∧ Scalar.lt (m.valueOf e.cell) e.value = false :=
  Bool.or_eq_false_iff

namespace Stage

structure Recorded (seeds : Array Bool) (p : Stage α) : Prop where
  value_size : p.march.value.size = seeds.size
  known_size : p.march.known.size = seeds.size
  nodup : p.settled.Nodup
  mem_settled : ∀ k, k ∈ p.settled ↔ k < seeds.size ∧ p.march.isKnown k
  /-- Every node that is to be visited may queue an entry. -/
  pushes : p.queued.length + p.todo.length ≤ seeds.count true + 4 * p.settled.length
  conserved : p.queued.Perm (p.taken ++ p.march.queue)

variable {f : Field α} {rule : Rule α} {seeds : Array Bool} {p q : Stage α} {k n : Nat}
  {ks : List Nat} {t : α} {e : Entry Nat α} {l r : List (Entry Nat α)}

theorem recorded_start (seeds : Array Bool) : (start seeds : Stage α).Recorded seeds where
  value_size := by simp [start, begin]
  known_size := by simp [start, begin]
  nodup := List.nodup_nil
  mem_settled k := by simp [start, isKnown_begin]
  pushes := by simp [start, length_queue_begin]
  conserved := .rfl

namespace Recorded

omit [Scalar α] in
theorem isKnown_of_mem (hp : p.Recorded seeds) (h : k ∈ p.settled) : p.march.isKnown k :=
  ((hp.mem_settled k).mp h).2

omit [Scalar α] in
theorem lt_of_unknown (hp : p.Recorded seeds) (h : p.march.isKnown k = false) : k < seeds.size :=
  hp.known_size ▸ March.lt_of_isKnown_eq_false h

omit [Scalar α] in
theorem length_settled_le (hp : p.Recorded seeds) : p.settled.length ≤ seeds.size := by
  have hsub : p.settled ⊆ List.range seeds.size := fun k hk =>
    List.mem_range.mpr ((hp.mem_settled k).mp hk).1
  simpa using (List.subperm_of_subset hp.nodup hsub).length_le

omit [Scalar α] in
theorem length_queued_le (hp : p.Recorded seeds) :
    p.queued.length ≤ seeds.count true + 4 * seeds.size := by
  have := hp.pushes
  have := hp.length_settled_le
  omega

omit [Scalar α] in
theorem ne_of_mem (hp : p.Recorded seeds) (hk : k ∈ p.settled) (hn : p.march.isKnown n = false) :
    k ≠ n := by
  rintro rfl
  have := hp.isKnown_of_mem hk
  simp [hn] at this

theorem valueOf_lower (hp : p.Recorded seeds) (hn : p.march.isKnown n = false) (k : Nat) :
    (p.lower n t ks).march.valueOf k = if k = n then t else p.march.valueOf k :=
  March.valueOf_lower (by rw [hp.value_size]; exact hp.lt_of_unknown hn) k

omit [Scalar α] in
theorem take (hp : p.Recorded seeds) (hq : p.march.queue = l ++ e :: r) :
    (p.take e (l ++ r)).Recorded seeds := by
  refine { hp with conserved := hp.conserved.trans ?_ }
  rw [hq, Stage.take, List.append_assoc, List.singleton_append]
  exact List.perm_middle.append_left _

omit [Scalar α] in
theorem settle (hp : p.Recorded seeds) (htodo : p.todo = []) (hk : p.march.isKnown k = false) :
    (p.settle f k).Recorded seeds := by
  constructor
  case value_size => exact hp.value_size
  case known_size => simpa [Stage.settle, March.settle] using hp.known_size
  case nodup =>
    refine List.nodup_append.mpr ⟨hp.nodup, by simp, fun n hn j hj => ?_⟩
    rw [List.mem_singleton.mp hj]
    exact hp.ne_of_mem hn hk
  case mem_settled =>
    intro n
    simp only [Stage.settle, List.mem_append, List.mem_singleton, hp.mem_settled,
      March.isKnown_settle, Bool.or_eq_true, decide_eq_true_eq]
    constructor
    · rintro (⟨hlt, h⟩ | rfl)
      · exact ⟨hlt, Or.inr h⟩
      · exact ⟨hp.lt_of_unknown hk, Or.inl rfl⟩
    · rintro ⟨hlt, h | h⟩
      · exact Or.inr h
      · exact Or.inl ⟨hlt, h⟩
  case pushes =>
    have h1 := hp.pushes
    have h2 := f.length_around_le k
    rw [htodo, List.length_nil] at h1
    simp only [Stage.settle, List.length_append, List.length_singleton]
    omega
  case conserved => exact hp.conserved

theorem lower (hp : p.Recorded seeds) (htodo : p.todo = k :: ks) :
    (p.lower k t ks).Recorded seeds := by
  refine { hp with value_size := ?_, pushes := ?_, conserved := ?_ }
  · simpa [Stage.lower, March.lower] using hp.value_size
  · have h1 := hp.pushes
    rw [htodo, List.length_cons] at h1
    simp only [Stage.lower, List.length_append, List.length_singleton]
    omega
  · refine (hp.conserved.append_right _).trans ?_
    rw [List.append_assoc]
    refine List.Perm.append_left _ (List.Perm.trans ?_ (enqueue_perm _ _).symm)
    exact List.perm_append_singleton _ _

theorem next (hp : p.Recorded seeds) (h : Next f rule p q) : q.Recorded seeds := by
  cases h with
  | skip htodo hq hrule hs => exact hp.take hq
  | settle htodo hq hrule hs => exact (hp.take hq).settle htodo (March.isStale_eq_false.mp hs).1
  | keep htodo ho =>
    have h1 := hp.pushes
    rw [htodo, List.length_cons] at h1
    exact { hp with pushes := by dsimp only; omega }
  | lower htodo ho => exact hp.lower htodo

/-- The nodes that are known stay so, in their order, and keep their values. -/
theorem next_frozen (hp : p.Recorded seeds) (h : Next f rule p q) :
    p.settled <+: q.settled ∧ ∀ k ∈ p.settled, q.march.valueOf k = p.march.valueOf k := by
  cases h with
  | skip htodo hq hrule hs => exact ⟨List.prefix_rfl, fun _ _ => rfl⟩
  | settle htodo hq hrule hs => exact ⟨List.prefix_append _ _, fun _ _ => rfl⟩
  | keep htodo ho => exact ⟨List.prefix_rfl, fun _ _ => rfl⟩
  | lower htodo ho =>
    refine ⟨List.prefix_rfl, fun k hk => ?_⟩
    obtain ⟨hn, -, -⟩ := March.offer_eq_some ho
    exact (hp.valueOf_lower hn k).trans (if_neg (hp.ne_of_mem hk hn))

theorem leads (hp : p.Recorded seeds) (h : Leads f rule p q) : q.Recorded seeds :=
  h.invariant (fun _ _ hp h => hp.next h) hp

theorem frozen (hp : p.Recorded seeds) (h : Leads f rule p q) :
    p.settled <+: q.settled ∧ ∀ k ∈ p.settled, q.march.valueOf k = p.march.valueOf k := by
  induction h with
  | refl => exact ⟨List.prefix_rfl, fun _ _ => rfl⟩
  | tail hlead hstep ih =>
    obtain ⟨hinit, hvalue⟩ := (hp.leads hlead).next_frozen hstep
    exact ⟨ih.1.trans hinit, fun k hk =>
      (hvalue k (ih.1.subset hk)).trans (ih.2 k hk)⟩

end Recorded

end Stage

end Eikonal.FastMarching
