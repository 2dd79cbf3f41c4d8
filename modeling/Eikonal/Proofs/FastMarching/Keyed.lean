import Eikonal.Proofs.FastMarching.Live
import Eikonal.Proofs.Traversal

/-! Fast marching with a queue that lowers the value of a node in place: a heap with one entry for
each node at most, ordered by value and then by node, row by row. Nothing in it is ever outdated.
The march that skips outdated entries keeps in step with this one: the nodes that are not known but
have a value are those of the heap, and the head of the queue, if it is not skipped, belongs to the
first node of the heap. So the two end alike. -/

namespace Eikonal.FastMarching

variable {α : Type} [Scalar α]

inductive KeyedError (α : Type) where
  | update (why : UpdateError)
  | heap (why : HeapError Nat α)

/-- How far a march with a heap of nodes has come. -/
structure KeyedMarch (α : Type) where
  value : Array α
  known : Array Bool
  heap : IndexedHeap Nat α
  /-- The nodes that were taken out of the heap, in this order. -/
  taken : List Nat := []

/-- Adds a node to a heap, or lowers its value if it is there already. -/
def put (h : IndexedHeap Nat α) (k : Nat) (t : α) : Except (HeapError Nat α) (IndexedHeap Nat α) :=
  if h.contains k then h.decreaseKey k t else h.push k t

theorem size_put {h h' : IndexedHeap Nat α} {k : Nat} {t : α} (hp : put h k t = .ok h') :
    h'.size ≤ h.size + 1 := by
  unfold put at hp
  split at hp
  · rw [IndexedHeap.size_decreaseKey hp]
    omega
  · rw [IndexedHeap.size_push hp]

namespace KeyedMarch

def nodes (d : KeyedMarch α) : March α := { value := d.value, known := d.known, queue := [] }

def visit (f : Field α) (d : KeyedMarch α) (k : Nat) : Except (KeyedError α) (KeyedMarch α) :=
  match d.nodes.offer f k with
  | .error e => .error (.update e)
  | .ok none => .ok d
  | .ok (some t) =>
    match put d.heap k t with
    | .error e => .error (.heap e)
    | .ok heap => .ok { d with value := d.value.setIfInBounds k t, heap }

def visitAll (f : Field α) (d : KeyedMarch α) (ks : List Nat) :
    Except (KeyedError α) (KeyedMarch α) :=
  ks.foldlM (visit f) d

def settle (d : KeyedMarch α) (k : Nat) : KeyedMarch α :=
  { d with known := d.known.setIfInBounds k true }

/-- Takes an entry out of the heap, of which `rest` is left: its node becomes known, unless it is
already, and the nodes around it are visited. -/
def step (f : Field α) (d : KeyedMarch α) (e : Entry Nat α) (rest : IndexedHeap Nat α) :
    Except (KeyedError α) (KeyedMarch α) :=
  let d := { d with heap := rest, taken := d.taken ++ [e.cell] }
  if d.nodes.isKnown e.cell then .ok d else (d.settle e.cell).visitAll f (f.around e.cell)

def remaining (d : KeyedMarch α) : Nat := d.heap.size + 5 * d.known.count false

theorem visit_bounds {f : Field α} {d d' : KeyedMarch α} {k : Nat} (h : d.visit f k = .ok d') :
    d'.known = d.known ∧ d'.heap.size ≤ d.heap.size + 1 := by
  unfold visit at h
  split at h
  · cases h
  · cases h
    exact ⟨rfl, by omega⟩
  · split at h
    · cases h
    · rename_i hput
      cases h
      exact ⟨rfl, size_put hput⟩

theorem visitAll_cons (f : Field α) (d : KeyedMarch α) (k : Nat) (ks : List Nat) :
    d.visitAll f (k :: ks) = d.visit f k >>= fun d => d.visitAll f ks := by
  rw [visitAll, List.foldlM_cons]
  rfl

theorem visitAll_bounds {f : Field α} {ks : List Nat} {d d' : KeyedMarch α}
    (h : d.visitAll f ks = .ok d') :
    d'.known = d.known ∧ d'.heap.size ≤ d.heap.size + ks.length := by
  induction ks generalizing d with
  | nil =>
    cases h
    exact ⟨rfl, by simp⟩
  | cons k ks ih =>
    rw [visitAll_cons] at h
    obtain ⟨d1, h1, h2⟩ := bind_eq_ok h
    obtain ⟨hk, hq⟩ := visit_bounds h1
    obtain ⟨hk', hq'⟩ := ih h2
    exact ⟨hk'.trans hk, by simp only [List.length_cons]; omega⟩

theorem remaining_step {f : Field α} {d d' : KeyedMarch α} {e : Entry Nat α}
    {rest : IndexedHeap Nat α} (hq : d.heap.pop = .ok (e, rest)) (h : d.step f e rest = .ok d') :
    d'.remaining < d.remaining := by
  have hsize := IndexedHeap.size_pop hq
  unfold step at h
  dsimp only at h
  split at h
  · cases h
    simp only [remaining]
    omega
  · rename_i hk
    obtain ⟨h1, h2⟩ := visitAll_bounds h
    have h3 := March.count_settle (m := d.nodes) (eq_false_of_ne_true hk)
    have h4 := f.length_around_le e.cell
    simp only [March.settle, nodes] at h3
    simp only [remaining, settle, h1] at *
    omega

def advance (f : Field α) (d : KeyedMarch α) : Except (KeyedError α) (KeyedMarch α) :=
  match _hq : d.heap.pop with
  | .error _ => .ok d
  | .ok (e, rest) =>
    match _h : d.step f e rest with
    | .error e => .error e
    | .ok d' => advance f d'
termination_by d.remaining
decreasing_by exact remaining_step ‹_› ‹_›

def ofSeeds (seeds : Array Bool) : Except (KeyedError α) (KeyedMarch α) :=
  let m : March α := begin seeds
  match m.queue.foldlM (fun h e => put h e.cell e.value) IndexedHeap.empty with
  | .error e => .error (.heap e)
  | .ok heap => .ok { value := m.value, known := m.known, heap }

def run (f : Field α) (seeds : Array Bool) : Except (KeyedError α) (KeyedMarch α) :=
  ofSeeds seeds >>= advance f

/-- The rest of a march that has nodes to visit first. -/
def finish (f : Field α) (d : KeyedMarch α) (ks : List Nat) :
    Except (KeyedError α) (KeyedMarch α) :=
  d.visitAll f ks >>= advance f

variable {f : Field α} {d : KeyedMarch α} {k : Nat}

theorem advance_of_error {e : HeapError Nat α} (h : d.heap.pop = .error e) :
    d.advance f = .ok d := by
  rw [advance]
  split
  · rfl
  · simp_all

theorem advance_of_ok {e : Entry Nat α} {rest : IndexedHeap Nat α}
    (h : d.heap.pop = .ok (e, rest)) : d.advance f = d.step f e rest >>= advance f := by
  rw [advance]
  split
  · simp_all
  · rename_i e' rest' hq
    rw [h] at hq
    cases hq
    split
    · rename_i hs
      rw [hs]
      rfl
    · rename_i hs
      rw [hs]
      rfl

/-! ### Keeping in step -/

/-- A march with a heap is as far as a stage of the march that skips outdated entries. -/
structure Follows (d : KeyedMarch α) (p : Stage α) : Prop where
  value : d.value = p.march.value
  known : d.known = p.march.known
  valid : d.heap.Valid
  key : ∀ k v, d.heap.key? k = some v ↔ p.march.isKnown k = false ∧
    Scalar.lt (p.march.valueOf k) Scalar.inf ∧ v = p.march.valueOf k
  taken : d.taken = p.settled

theorem Follows.offer_eq {p : Stage α} (hd : d.Follows p) (k : Nat) :
    d.nodes.offer f k = p.march.offer f k := by
  unfold nodes
  rw [hd.value, hd.known]
  rfl

theorem Follows.isKnown_eq {p : Stage α} (hd : d.Follows p) (k : Nat) :
    d.nodes.isKnown k = p.march.isKnown k := by
  unfold nodes
  rw [hd.known]
  rfl

variable [OrderedScalar α] {seeds : Array Bool} {p q : Stage α}

theorem put_differs {h : IndexedHeap Nat α} {t : α} (hh : h.Valid)
    (ht : Scalar.isNaN t = false) (hlt : ∀ v, h.key? k = some v → Scalar.lt v t = false) :
    ∃ h', put h k t = .ok h' ∧ h'.Valid ∧ h.Differs k (some t) h' := by
  unfold put
  rw [hh.consistent.contains_eq]
  cases hk : h.key? k with
  | none => exact hh.push hk ht
  | some v => exact hh.decreaseKey hk ht (hlt v hk)

/-- The head of the queue, if it is not skipped, belongs to the first node of the heap. -/
theorem Follows.pop (hd : d.Follows p) (hr : p.Recorded seeds) (hp : p.Live)
    {l r : List (Entry Nat α)} {e : Entry Nat α} (hq : p.march.queue = l ++ e :: r)
    (hfirst : First e (l ++ r)) (hs : p.march.isStale e = false) :
    ∃ e' rest, d.heap.pop = .ok (e', rest) ∧ e'.cell = e.cell ∧ rest.Valid ∧
      d.heap.Differs e.cell none rest := by
  have he : e ∈ p.queued := Stage.Live.mem_queued hr (by simp [hq])
  have heq := hp.eq_of_not_stale he hs
  have hkey : d.heap.key? e.cell = some e.value := by
    refine (hd.key _ _).mpr ⟨(March.isStale_eq_false.mp hs).1, ?_, congrArg Entry.value heq⟩
    exact Scalar.lt_of_le_of_lt (hp.current_le he) (hp.below e he)
  have hpos : 0 < d.heap.entries.size :=
    Array.size_pos_of_mem (hd.valid.consistent.key?_eq_some.mp hkey)
  obtain ⟨e', rest, hpop, hvalid, hkey', hdiff, hmin⟩ := hd.valid.pop hpos
  suffices hcell : e'.cell = e.cell by
    rw [hcell] at hdiff
    exact ⟨e', rest, hpop, hcell, hvalid, hdiff⟩
  -- neither entry comes before the other: one heads the heap, the other one the queue
  obtain ⟨hk', hlt', hv'⟩ := (hd.key _ _).mp hkey'
  have hwaits : e' ∈ p.march.queue := by
    have := hp.waiting _ hk' hlt'
    rwa [← hv'] at this
  have hbefore : e'.before e = false := by
    rw [hq, List.mem_append, List.mem_cons] at hwaits
    rcases hwaits with h | rfl | h
    · exact hfirst e' (List.mem_append_left _ h)
    · exact (Entry.not_before_iff (hp.number_of_mem he) (hp.number_of_mem he)).mpr
        ⟨Scalar.le_refl (hp.number_of_mem he), fun _ => Std.ReflCmp.isLE_rfl⟩
    · exact hfirst e' (List.mem_append_right _ h)
  exact Entry.cell_eq_of_not_before (by rw [hv']; exact hp.number _) (hp.number_of_mem he)
    (hmin _ _ hkey) hbefore

omit [OrderedScalar α] in
theorem Follows.settle (hd : d.Follows p) {l r : List (Entry Nat α)} {e : Entry Nat α}
    {rest : IndexedHeap Nat α} (hvalid : rest.Valid) (hdiff : d.heap.Differs e.cell none rest) :
    ({ d with heap := rest, taken := d.taken ++ [e.cell] }.settle e.cell).Follows
      ((p.take e (l ++ r)).settle f e.cell) := by
  constructor
  case value => exact hd.value
  case known => exact congrArg (·.setIfInBounds e.cell true) hd.known
  case valid => exact hvalid
  case key =>
    intro k v
    rw [Stage.isKnown_settle]
    by_cases hke : k = e.cell
    · rw [hke]
      simp [KeyedMarch.settle, hdiff.key?_self]
    · have := hdiff.key?_ne hd.valid.consistent hke
      simp [KeyedMarch.settle, this, hd.key, hke]
  case taken => exact congrArg (· ++ [e.cell]) hd.taken

theorem Follows.lower (hd : d.Follows p) (hr : p.Recorded seeds) (hp : p.Live) {t : α}
    {ks : List Nat} {heap : IndexedHeap Nat α} (hn : p.march.isKnown k = false)
    (hlt : Scalar.lt t (p.march.valueOf k)) (hvalid : heap.Valid)
    (hdiff : d.heap.Differs k (some t) heap) :
    Follows { d with value := d.value.setIfInBounds k t, heap } (p.lower k t ks) := by
  constructor
  case value => exact congrArg (·.setIfInBounds k t) hd.value
  case known => exact hd.known
  case valid => exact hvalid
  case key =>
    intro n v
    rw [hr.valueOf_lower hn, Stage.isKnown_lower]
    by_cases hnk : n = k
    · have htinf := Scalar.lt_of_lt_of_le hlt (OrderedScalar.le_inf (hp.number k))
      rw [hnk, hdiff.key?_self, if_pos rfl]
      simp [hn, htinf, eq_comm]
    · rw [hdiff.key?_ne hd.valid.consistent hnk, if_neg hnk, hd.key]
  case taken => exact hd.taken

/-- A part of the march that skips outdated entries is one of the march with a heap, or nothing. -/
theorem Follows.next (hd : d.Follows p) (hr : p.Recorded seeds) (hp : p.Live)
    (h : Stage.Next f First p q) :
    ∃ d', Follows d' q ∧ finish f d' q.todo = finish f d p.todo := by
  cases h with
  | skip htodo hq hrule hs => exact ⟨d, { hd with }, rfl⟩
  | @settle l r e htodo hq hrule hs =>
    obtain ⟨e', rest, hpop, hcell, hvalid, hdiff⟩ := hd.pop hr hp hq hrule hs
    have hk : d.nodes.isKnown e.cell = false := by
      rw [hd.isKnown_eq]
      exact (March.isStale_eq_false.mp hs).1
    refine ⟨_, hd.settle hvalid hdiff, ?_⟩
    have hstep : d.step f e' rest =
        ({ d with heap := rest, taken := d.taken ++ [e.cell] }.settle e.cell).visitAll f
          (f.around e.cell) := by
      unfold step
      rw [hcell]
      exact if_neg (ne_true_of_eq_false hk)
    rw [htodo]
    show _ = d.advance f
    rw [advance_of_ok hpop, hstep]
    rfl
  | keep htodo ho =>
    refine ⟨d, { hd with }, ?_⟩
    rw [htodo, finish, finish, visitAll_cons, visit, hd.offer_eq, ho]
    rfl
  | @lower k ks t htodo ho =>
    obtain ⟨hn, hlt, -⟩ := March.offer_eq_some ho
    have ht : Scalar.isNaN t = false := OrderedScalar.not_nan_left (Scalar.le_of_lt hlt)
    obtain ⟨heap, hput, hvalid, hdiff⟩ := put_differs hd.valid ht fun v hv => by
      rw [((hd.key _ _).mp hv).2.2]
      exact Scalar.not_lt_of_le (Scalar.le_of_lt hlt)
    refine ⟨_, hd.lower hr hp hn hlt hvalid hdiff, ?_⟩
    rw [htodo, finish, finish, visitAll_cons, visit, hd.offer_eq, ho]
    simp only [hput]
    rfl

theorem Follows.finish_of_done (hd : d.Follows p) (hp : p.Live) (hdone : p.Done) :
    d.finish f p.todo = .ok d := by
  have hempty : d.heap.entries.size = 0 := by
    by_contra hne
    obtain ⟨e, -, -, -, hkey, -, -⟩ := hd.valid.pop (Nat.pos_of_ne_zero hne)
    obtain ⟨hk, hlt, -⟩ := (hd.key _ _).mp hkey
    rw [hp.not_lt_inf_of_done hdone hk] at hlt
    cases hlt
  rw [hdone.1, finish]
  exact advance_of_error (IndexedHeap.pop_empty hempty)

omit [OrderedScalar α] in
theorem Follows.finish_of_fails (hd : d.Follows p) {e : UpdateError} (h : p.Fails f e) :
    d.finish f p.todo = .error (.update e) := by
  obtain ⟨k, ks, htodo, hvisit⟩ := h
  rw [March.visit_eq] at hvisit
  rw [htodo, finish, visitAll_cons, visit, hd.offer_eq]
  cases ho : p.march.offer f k with
  | error e' =>
    rw [ho] at hvisit
    cases hvisit
    rfl
  | ok o =>
    rw [ho] at hvisit
    cases hvisit

theorem exists_putAll (l : List (Entry Nat α)) {h : IndexedHeap Nat α} (hh : h.Valid)
    (hl : ∀ e ∈ l, e.value = Scalar.zero) (hz : ∀ k v, h.key? k = some v → v = Scalar.zero) :
    ∃ heap, l.foldlM (fun h e => put h e.cell e.value) h = .ok heap ∧ heap.Valid ∧
      ∀ k v, heap.key? k = some v ↔ h.key? k = some v ∨ ⟨v, k⟩ ∈ l := by
  induction l generalizing h with
  | nil => exact ⟨h, rfl, hh, by simp⟩
  | cons e l ih =>
    obtain ⟨he, hl⟩ := List.forall_mem_cons.mp hl
    obtain ⟨h1, hput, hh1, hdiff⟩ := put_differs (k := e.cell) (t := e.value) hh (by simp [he])
      fun v hv => by rw [hz _ _ hv, he]; exact Scalar.lt_irrefl _
    have hkey : ∀ k v, h1.key? k = some v ↔ h.key? k = some v ∨ ⟨v, k⟩ = e := by
      intro k v
      by_cases hke : k = e.cell
      · subst hke
        rw [hdiff.key?_self, Option.some.injEq]
        constructor
        · rintro rfl
          exact Or.inr rfl
        · rintro (hv | hv)
          · rw [he, hz _ _ hv]
          · exact (congrArg Entry.value hv).symm
      · rw [hdiff.key?_ne hh.consistent hke]
        exact ⟨Or.inl, fun hv => hv.resolve_right fun heq => hke (congrArg Entry.cell heq)⟩
    obtain ⟨heap, hfold, hheap, hkeys⟩ := ih hh1 hl fun k v hv => by
      rcases (hkey k v).mp hv with hv | rfl
      · exact hz _ _ hv
      · exact he
    refine ⟨heap, ?_, hheap, fun k v => ?_⟩
    · rw [List.foldlM_cons, hput]
      exact hfold
    · rw [hkeys, hkey, List.mem_cons, or_assoc]

theorem exists_ofSeeds (seeds : Array Bool) :
    ∃ d : KeyedMarch α, ofSeeds seeds = .ok d ∧ d.Follows (Stage.start seeds) := by
  obtain ⟨heap, hfold, hheap, hkeys⟩ := exists_putAll (begin seeds : March α).queue
    IndexedHeap.valid_empty (fun e he => (mem_queue_begin.mp he).2)
    fun k v hv => by simp [IndexedHeap.key?_empty] at hv
  refine ⟨⟨(begin seeds : March α).value, (begin seeds : March α).known, heap, []⟩, ?_, rfl, rfl,
    hheap, fun k v => ?_, rfl⟩
  · unfold ofSeeds
    dsimp only
    rw [hfold]
  · have hstart : (Stage.start seeds : Stage α).march = begin seeds := rfl
    rw [hkeys, IndexedHeap.key?_empty, mem_queue_begin, hstart, valueOf_begin, isKnown_begin,
      decide_eq_false_iff_not, not_le]
    split
    · rename_i hs
      simp [hs, lt_of_seed hs, OrderedScalar.zero_lt_inf]
    · rename_i hs
      simp [hs, Scalar.lt_irrefl]

/-- The march that skips outdated entries and the march with a heap end alike: with the same values
and the same nodes known in the same order, or with the same failure of an update. -/
theorem run_eq (f : Field α) (seeds : Array Bool) :
    match (begin seeds).advance f with
    | .ok m => ∃ p d, Stage.Leads f First (Stage.start seeds) p ∧ p.march = m ∧ p.Done ∧
        run f seeds = .ok d ∧ d.value = m.value ∧ d.taken = p.settled
    | .error e => run f seeds = .error (.update e) := by
  obtain ⟨d, hofSeeds, hd⟩ := exists_ofSeeds (α := α) seeds
  have hrun : run f seeds = d.finish f [] := by
    rw [run, hofSeeds]
    rfl
  have hstep : ∀ p, Stage.Leads f First (Stage.start seeds) p →
      p.Live ∧ ∃ d' : KeyedMarch α, d'.Follows p ∧ d'.finish f p.todo = run f seeds := by
    intro p hlead
    refine (hlead.invariant (I := fun p => p.Recorded seeds ∧ p.Live ∧
      ∃ d' : KeyedMarch α, d'.Follows p ∧ d'.finish f p.todo = run f seeds) (fun p q hp h => ?_)
      ⟨Stage.recorded_start seeds, Stage.live_start seeds, d, hd, hrun.symm⟩).2
    obtain ⟨hr, hl, d', hd', hfinish⟩ := hp
    obtain ⟨d'', hd'', heq⟩ := hd'.next hr hl h
    exact ⟨hr.next h, hl.next hr h, d'', hd'', heq.trans hfinish⟩
  have hends := Stage.ends_first f seeds
  cases hm : (begin seeds).advance f with
  | ok m =>
    rw [hm] at hends
    obtain ⟨p, hlead, rfl, hdone⟩ := hends
    obtain ⟨hl, d', hd', hfinish⟩ := hstep p hlead
    rw [hd'.finish_of_done hl hdone] at hfinish
    exact ⟨p, d', hlead, rfl, hdone, hfinish.symm, hd'.value, hd'.taken⟩
  | error e =>
    rw [hm] at hends
    obtain ⟨p, hlead, hfails⟩ := hends
    obtain ⟨-, d', hd', hfinish⟩ := hstep p hlead
    rw [hd'.finish_of_fails hfails] at hfinish
    exact hfinish.symm

end KeyedMarch

end Eikonal.FastMarching
