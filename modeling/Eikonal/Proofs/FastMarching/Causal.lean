import Eikonal.Proofs.FastMarching.Live
import Eikonal.Proofs.FastMarching.Scheme

/-! The order in which nodes become known, in exact arithmetic. If every entry that is taken has the
least value of the queue, no node becomes known with a value below one that is known already. So the
value of a node is its upwind time from the known nodes around it, also after more of them became
known: a node that becomes known after it does not count for it. -/

namespace Eikonal.FastMarching

variable {f : Field EReal} {m : March EReal} {seeds : Array Bool} {k n c : Nat}
  {ks : List Nat} {t v : EReal}

/-! ### Known times -/

namespace March

/-- The values of the known nodes; infinity at the others. -/
noncomputable def knownTime (m : March EReal) (k : Nat) : EReal :=
  if m.isKnown k then m.valueOf k else ⊤

theorem le_leastKnown_iff : t ≤ m.leastKnown ks ↔ ∀ k ∈ ks, t ≤ m.knownTime k := by
  have hmem : ∀ v, v ∈ (ks.filter m.isKnown).map (fun k => m.value.getD k Scalar.inf) ↔
      ∃ k ∈ ks, m.isKnown k ∧ m.valueOf k = v := by
    intro v
    simp [March.valueOf, and_assoc]
  unfold March.leastKnown
  constructor
  · intro ht k hk
    unfold knownTime
    split
    · rename_i hkn
      have := Scalar.leastOf_le ((hmem _).mpr ⟨k, hk, hkn, rfl⟩) (Exact.isNaN_eq _)
      exact ht.trans (Exact.le_iff.mp this)
    · exact le_top
  · intro h
    rcases Scalar.leastOf_mem ((ks.filter m.isKnown).map fun k => m.value.getD k Scalar.inf) with
      he | he
    · rw [he]
      exact le_top
    · obtain ⟨k, hk, hkn, hv⟩ := (hmem _).mp he
      have := h k hk
      rwa [knownTime, if_pos hkn, hv] at this

theorem leastKnown_eq (m : March EReal) (ks : List Nat) :
    m.leastKnown ks = least m.knownTime ks :=
  eq_of_forall_le_iff fun _ => by rw [le_leastKnown_iff, le_least_iff]

theorem knownTime_nonneg (h : ∀ k, 0 ≤ m.valueOf k) (k : Nat) : 0 ≤ m.knownTime k := by
  unfold knownTime
  split
  · exact h k
  · exact le_top

theorem knownTime_ne_bot (h : ∀ k, 0 ≤ m.valueOf k) (k : Nat) : m.knownTime k ≠ ⊥ :=
  ne_bot_of_le_ne_bot EReal.bot_lt_zero.ne' (knownTime_nonneg h k)

/-- The upwind time of a node from the nodes known so far. -/
noncomputable def upwindTime (f : Field EReal) (m : March EReal) (k : Nat) : EReal :=
  f.upwindTime m.knownTime k

theorem offer_eq (hf : f.Regular) (hm : ∀ k, 0 ≤ m.valueOf k) (hk : m.isKnown k = false) :
    m.offer f k = .ok (if m.upwindTime f k < m.valueOf k
      then some (m.upwindTime f k) else none) := by
  obtain ⟨o, ho, hup, -⟩ := hf.exists_arrival? (k := k) fun n _ => knownTime_ne_bot hm n
  rw [← leastKnown_eq, ← leastKnown_eq] at ho
  unfold offer upwindTime
  rw [if_neg (by simp [hk]), ho, ← hup]
  cases o with
  | none => simp
  | some t => simp only [Exact.lt_iff, Option.getD_some]

theorem upwindTime_nonneg (hf : f.Regular) (hm : ∀ k, 0 ≤ m.valueOf k) (k : Nat) :
    0 ≤ m.upwindTime f k :=
  hf.le_upwindTime (fun n _ => knownTime_ne_bot hm n) fun n _ => knownTime_nonneg hm n

/-- A node that is not known does not count for the others. -/
theorem upwindTime_lower (hk : k < m.value.size) (hn : m.isKnown k = false) (c : Nat) :
    (m.lower k t).upwindTime f c = m.upwindTime f c := by
  unfold upwindTime
  congr 1
  funext n
  have hkn : (m.lower k t).isKnown n = m.isKnown n := rfl
  unfold knownTime
  rw [hkn, valueOf_lower hk]
  split
  · rename_i h
    rw [if_neg]
    rintro rfl
    simp [hn] at h
  · rfl

/-! ### A node becomes known -/

theorem valueOf_settle (m : March EReal) (c k : Nat) : (m.settle c).valueOf k = m.valueOf k := rfl

section Settle

variable (hc : m.isKnown c = false)
include hc

theorem knownTime_settle (k : Nat) :
    (m.settle c).knownTime k = if k = c then m.valueOf c else m.knownTime k := by
  unfold knownTime
  rw [isKnown_settle, valueOf_settle]
  by_cases hk : k = c
  · subst hk
    simp
  · simp [hk]

theorem knownTime_settle_le (k : Nat) : (m.settle c).knownTime k ≤ m.knownTime k := by
  rw [knownTime_settle hc]
  split
  · rename_i hk
    rw [hk, knownTime, if_neg (by simp [hc])]
    exact le_top
  · exact le_rfl

theorem min_knownTime_settle (k : Nat) :
    min ((m.settle c).knownTime k) (m.valueOf c) = min (m.knownTime k) (m.valueOf c) := by
  rw [knownTime_settle hc]
  split
  · rename_i hk
    rw [hk, knownTime, if_neg (by simp [hc]), min_self, min_eq_right le_top]
  · rfl

variable (hf : f.Regular) (hm : ∀ k, 0 ≤ m.valueOf k)
include hf hm

theorem upwindTime_settle_le (k : Nat) : (m.settle c).upwindTime f k ≤ m.upwindTime f k :=
  hf.upwindTime_mono (fun n _ => knownTime_ne_bot (m := m.settle c) hm n)
    fun n _ => knownTime_settle_le hc n

/-- Up to the value of the node that becomes known, no upwind time changes. -/
theorem min_upwindTime_settle (k : Nat) :
    min ((m.settle c).upwindTime f k) (m.valueOf c) = min (m.upwindTime f k) (m.valueOf c) :=
  hf.min_upwindTime_congr (fun n _ => knownTime_ne_bot (m := m.settle c) hm n)
    (fun n _ => knownTime_ne_bot hm n) fun n _ => min_knownTime_settle hc n

theorem upwindTime_settle_eq (h : m.upwindTime f k ≤ m.valueOf c) :
    (m.settle c).upwindTime f k = m.upwindTime f k := by
  have hmin := min_upwindTime_settle hc hf hm k
  have hle := upwindTime_settle_le hc hf hm k
  rwa [min_eq_left h, min_eq_left (hle.trans h)] at hmin

theorem le_upwindTime_settle (h : m.valueOf c ≤ m.upwindTime f k) :
    m.valueOf c ≤ (m.settle c).upwindTime f k := by
  rw [← min_eq_right_iff, min_upwindTime_settle hc hf hm, min_eq_right h]

theorem upwindTime_settle_of_notMem (hk : k < f.size) (h : k ∉ f.around c) :
    (m.settle c).upwindTime f k = m.upwindTime f k := by
  refine le_antisymm (upwindTime_settle_le hc hf hm k) ?_
  refine hf.upwindTime_mono (fun n _ => knownTime_ne_bot hm n) fun n hn => ?_
  rw [knownTime_settle hc, if_neg]
  rintro rfl
  exact h (Field.around_symm hk hn)

end Settle

end March

/-- Only an entry of the least value may be taken. -/
def Least : Rule EReal := fun e rest => ∀ d ∈ rest, e.value ≤ d.value

theorem least_of_first (e : Entry Nat EReal) (l : List (Entry Nat EReal)) (h : First e l) :
    Least e l := fun d hd =>
  Exact.le_iff.mp
    ((Entry.not_before_iff (Exact.isNaN_eq _) (Exact.isNaN_eq _)).mp (h d hd)).1

/-! ### Upwind times on the way -/

namespace Stage

/-- A node that an entry of the least value makes known comes before all that are not known. -/
theorem Live.le_of_least {p : Stage EReal} {l r : List (Entry Nat EReal)} {e : Entry Nat EReal}
    (hl : p.Live) (hr : p.Recorded seeds) (hq : p.march.queue = l ++ e :: r)
    (hrule : Least e (l ++ r)) (hs : p.march.isStale e = false) :
    ∀ n, p.march.isKnown n = false → p.march.valueOf e.cell ≤ p.march.valueOf n := by
  intro n hn
  have he := hl.eq_of_not_stale (mem_queued hr (by simp [hq])) hs
  have hev : e.value = p.march.valueOf e.cell := congrArg Entry.value he
  rcases eq_or_ne (p.march.valueOf n) ⊤ with htop | htop
  · rw [htop]
    exact le_top
  · have hw := hl.waiting n hn (Exact.lt_iff.mpr (lt_top_iff_ne_top.mpr htop))
    rw [← hev]
    by_cases heq : ⟨p.march.valueOf n, n⟩ = e
    · exact (congrArg Entry.value heq).ge
    · exact hrule _ (mem_left hq hw heq)

/-- How the values of a march stand to the upwind times. -/
structure Causal (f : Field EReal) (seeds : Array Bool) (p : Stage EReal) : Prop where
  nonneg : ∀ k, 0 ≤ p.march.valueOf k
  seed : ∀ k, seeds.getD k false → p.march.valueOf k = 0
  /-- The nodes that are not known yet come after the known ones. -/
  later : ∀ k ∈ p.settled, ∀ n, p.march.isKnown n = false → p.march.valueOf k ≤ p.march.valueOf n
  sorted : p.settled.Pairwise fun k n => p.march.valueOf k ≤ p.march.valueOf n
  solved : ∀ k < f.size, seeds.getD k false = false → p.march.isKnown k ∨ k ∉ p.todo →
    p.march.valueOf k = p.march.upwindTime f k
  /-- What the next visits offer is not below the values of the known nodes. -/
  offered : ∀ k ∈ p.todo, p.march.isKnown k = false → seeds.getD k false = false →
    p.march.upwindTime f k ≤ p.march.valueOf k ∧
      ∀ n ∈ p.settled, p.march.valueOf n ≤ p.march.upwindTime f k

variable {p q : Stage EReal}

theorem causal_start (hf : f.Regular) (hsize : seeds.size = f.size) :
    (start seeds : Stage EReal).Causal f seeds := by
  have hvalue : ∀ k, (start seeds : Stage EReal).march.valueOf k =
      if seeds.getD k false then 0 else ⊤ := valueOf_begin seeds
  have hknown : ∀ k < f.size, (start seeds : Stage EReal).march.knownTime k = ⊤ := by
    intro k hk
    have : (start seeds : Stage EReal).march.isKnown k = false := by
      simp [start, isKnown_begin, hsize, hk]
    rw [March.knownTime, if_neg (by simp [this])]
  constructor
  case nonneg =>
    intro k
    rw [hvalue]
    split <;> simp
  case seed =>
    intro k hs
    rw [hvalue, if_pos hs]
  case later => exact fun k hk => absurd hk List.not_mem_nil
  case sorted => exact List.Pairwise.nil
  case solved =>
    intro k hk hs _
    have htop : ∀ n ∈ f.around k, (start seeds : Stage EReal).march.knownTime n = ⊤ := fun n hn =>
      hknown n (Field.lt_of_mem_around hk hn)
    rw [hvalue, if_neg (by simp [hs])]
    exact (top_le_iff.mp (hf.le_upwindTime (fun n hn => by simp [htop n hn])
      fun n hn => (htop n hn).ge)).symm
  case offered => exact fun k hk => absurd hk List.not_mem_nil

namespace Causal

theorem not_fails (hp : p.Causal f seeds) (hf : f.Regular) {e : UpdateError} : ¬p.Fails f e := by
  rintro ⟨k, ks, -, hvisit⟩
  rw [March.visit_eq] at hvisit
  cases hk : p.march.isKnown k with
  | true =>
    rw [March.offer, if_pos hk] at hvisit
    cases hvisit
  | false =>
    rw [March.offer_eq hf hp.nonneg hk] at hvisit
    cases hvisit

theorem next_settle {l r : List (Entry Nat EReal)} {e : Entry Nat EReal} (hp : p.Causal f seeds)
    (hf : f.Regular) (hsize : seeds.size = f.size) (hr : p.Recorded seeds) (hl : p.Live)
    (htodo : p.todo = []) (hq : p.march.queue = l ++ e :: r) (hrule : Least e (l ++ r))
    (hs : p.march.isStale e = false) :
    ((p.take e (l ++ r)).settle f e.cell).Causal f seeds := by
  obtain ⟨hc, -⟩ := March.isStale_eq_false.mp hs
  have hmin := hl.le_of_least hr hq hrule hs
  have hsolved : ∀ k < f.size, seeds.getD k false = false →
      p.march.valueOf k = p.march.upwindTime f k := fun k hk hs =>
    hp.solved k hk hs (Or.inr (by simp [htodo]))
  have hclt : e.cell < f.size := hsize ▸ hr.lt_of_unknown hc
  have hlast : ∀ n ∈ p.settled ++ [e.cell], p.march.valueOf n ≤ p.march.valueOf e.cell := by
    intro n hn
    rcases List.mem_append.mp hn with hn | hn
    · exact hp.later n hn _ hc
    · rw [List.mem_singleton.mp hn]
  constructor
  case nonneg => exact hp.nonneg
  case seed => exact hp.seed
  case later =>
    intro k hk n hn
    rw [isKnown_settle, Bool.or_eq_false_iff] at hn
    exact (hlast k hk).trans (hmin n hn.2)
  case sorted =>
    refine List.pairwise_append.mpr ⟨hp.sorted, List.pairwise_singleton _ _, fun k hk n hn => ?_⟩
    rw [List.mem_singleton.mp hn]
    exact hp.later k hk _ hc
  case solved =>
    intro k hk hs hor
    refine (hsolved k hk hs).trans (Eq.symm ?_)
    rw [isKnown_settle, Bool.or_eq_true, decide_eq_true_eq] at hor
    rcases hor with hor | hor
    · -- a known node comes no later than the one that becomes known
      refine March.upwindTime_settle_eq hc hf hp.nonneg ?_
      show p.march.upwindTime f k ≤ p.march.valueOf e.cell
      rw [← hsolved k hk hs]
      refine hlast k (List.mem_append.mpr ?_)
      rcases hor with rfl | hor
      · exact Or.inr (List.mem_singleton.mpr rfl)
      · exact Or.inl ((hr.mem_settled k).mpr ⟨hsize ▸ hk, hor⟩)
    · exact March.upwindTime_settle_of_notMem hc hf hp.nonneg hk hor
  case offered =>
    intro k hk hn hs
    have hklt := Field.lt_of_mem_around hclt hk
    rw [isKnown_settle, Bool.or_eq_false_iff] at hn
    have heq := hsolved k hklt hs
    refine ⟨?_, fun n hmem => (hlast n hmem).trans ?_⟩
    · exact (March.upwindTime_settle_le hc hf hp.nonneg k).trans heq.ge
    · exact March.le_upwindTime_settle hc hf hp.nonneg (heq ▸ hmin k hn.2)

theorem next_keep (hp : p.Causal f seeds) (hf : f.Regular) (htodo : p.todo = k :: ks)
    (ho : p.march.offer f k = .ok none) :
    Causal f seeds { p with todo := ks } := by
  refine { hp with solved := fun n hn hs hor => ?_, offered := fun n hn => ?_ }
  · cases hk : p.march.isKnown n with
    | true => exact hp.solved n hn hs (Or.inl hk)
    | false =>
      have hks : n ∉ ks := hor.resolve_left (by simp [hk])
      by_cases hnk : n = k
      · subst hnk
        -- the visit did not offer anything earlier
        rw [March.offer_eq hf hp.nonneg hk] at ho
        obtain ⟨hle, -⟩ := hp.offered n (by simp [htodo]) hk hs
        refine le_antisymm (not_lt.mp fun hlt => ?_) hle
        rw [if_pos hlt] at ho
        cases ho
      · exact hp.solved n hn hs (Or.inr (by simp [htodo, hnk, hks]))
  · exact hp.offered n (by simp [htodo, show n ∈ ks from hn])

theorem next_lower (hp : p.Causal f seeds) (hf : f.Regular) (hr : p.Recorded seeds)
    (htodo : p.todo = k :: ks) (ho : p.march.offer f k = .ok (some t)) :
    (p.lower k t ks).Causal f seeds := by
  obtain ⟨hk, hlt, -⟩ := March.offer_eq_some ho
  have ht : t = p.march.upwindTime f k := by
    rw [March.offer_eq hf hp.nonneg hk] at ho
    split at ho
    · cases ho
      rfl
    · cases ho
  rw [Exact.lt_iff] at hlt
  have htnn : 0 ≤ t := ht ▸ March.upwindTime_nonneg hf hp.nonneg k
  have hseed : seeds.getD k false = false := by
    rw [Bool.eq_false_iff]
    intro hs
    rw [hp.seed k hs] at hlt
    exact absurd htnn (not_le.mpr hlt)
  obtain ⟨hle, hafter⟩ := hp.offered k (by simp [htodo]) hk hseed
  have hvalue : ∀ n, (p.lower k t ks).march.valueOf n = if n = k then t else p.march.valueOf n :=
    hr.valueOf_lower hk
  have hup : ∀ n, (p.lower k t ks).march.upwindTime f n = p.march.upwindTime f n :=
    March.upwindTime_lower (by rw [hr.value_size]; exact hr.lt_of_unknown hk) hk
  have hsettled : ∀ n ∈ p.settled, (p.lower k t ks).march.valueOf n = p.march.valueOf n := by
    intro n hn
    rw [hvalue, if_neg (hr.ne_of_mem hn hk)]
  constructor
  case nonneg =>
    intro n
    rw [hvalue]
    split
    · exact htnn
    · exact hp.nonneg n
  case seed =>
    intro n hs
    rw [hvalue, if_neg, hp.seed n hs]
    rintro rfl
    simp [hseed] at hs
  case later =>
    intro n hn j hj
    rw [hsettled n hn, hvalue]
    split
    · rw [ht]
      exact hafter n hn
    · exact hp.later n hn j hj
  case sorted =>
    refine hp.sorted.imp_of_mem fun hn hj h => ?_
    rwa [hsettled _ hn, hsettled _ hj]
  case solved =>
    intro n hn hs hor
    rw [hvalue, hup]
    split
    · rename_i h
      rw [ht, h]
    · rename_i h
      exact hp.solved n hn hs (hor.imp_right fun (h' : n ∉ ks) => by simp [htodo, h, h'])
  case offered =>
    intro n hn hkn hs
    rw [hvalue, hup]
    refine ⟨?_, fun j hj => ?_⟩
    · split
      · rename_i h
        rw [ht, h]
      · exact (hp.offered n (by simp [htodo, show n ∈ ks from hn]) hkn hs).1
    · rw [hsettled j hj]
      exact (hp.offered n (by simp [htodo, show n ∈ ks from hn]) hkn hs).2 j hj

theorem next (hp : p.Causal f seeds) (hf : f.Regular) (hsize : seeds.size = f.size)
    (hr : p.Recorded seeds) (hl : p.Live) (h : Next f Least p q) : q.Causal f seeds := by
  cases h with
  | skip htodo hq hrule hs => exact { hp with }
  | settle htodo hq hrule hs => exact hp.next_settle hf hsize hr hl htodo hq hrule hs
  | keep htodo ho => exact hp.next_keep hf htodo ho
  | lower htodo ho => exact hp.next_lower hf hr htodo ho

end Causal

/-! ### The whole way -/

section Leads

variable (hf : f.Regular) (hsize : seeds.size = f.size)
include hf hsize

theorem causal_leads (h : Leads f Least (start seeds) p) :
    p.Recorded seeds ∧ p.Live ∧ p.Causal f seeds :=
  h.invariant (I := fun p => p.Recorded seeds ∧ p.Live ∧ p.Causal f seeds)
    (fun _ _ ⟨hr, hl, hc⟩ h => ⟨hr.next h, hl.next hr h, hc.next hf hsize hr hl h⟩)
    ⟨recorded_start seeds, live_start seeds, causal_start hf hsize⟩

/-- If there is a seed, every node is known at the end: beside a known node none is left without a
value. -/
theorem isKnown_of_done (h : Leads f Least (start seeds) p) (hd : p.Done) (hseed : true ∈ seeds) :
    ∀ k < f.size, p.march.isKnown k := by
  obtain ⟨hr, hl, hc⟩ := causal_leads hf hsize h
  have htop : ∀ k, p.march.isKnown k = false → p.march.valueOf k = ⊤ := by
    intro k hk
    by_contra hne
    have hlt : Scalar.lt (p.march.valueOf k) Scalar.inf :=
      Exact.lt_iff.mpr (lt_top_iff_ne_top.mpr hne)
    rw [hl.not_lt_inf_of_done hd hk] at hlt
    cases hlt
  have hspread : ∀ k < f.size, p.march.isKnown k → ∀ n ∈ f.around k, p.march.isKnown n := by
    intro k hk hkn n hn
    by_contra hnn
    rw [Bool.not_eq_true] at hnn
    have hvn := htop n hnn
    have hs : seeds.getD n false = false := by
      rw [Bool.eq_false_iff]
      intro hs
      rw [hc.seed n hs] at hvn
      exact absurd hvn EReal.zero_ne_top
    have hvk : p.march.valueOf k < ⊤ :=
      Exact.lt_iff.mp (hl.arrived k ((hr.mem_settled k).mpr ⟨hsize ▸ hk, hkn⟩))
    rw [hc.solved n (Field.lt_of_mem_around hk hn) hs (Or.inr (by simp [hd.1]))] at hvn
    refine (hf.upwindTime_lt_top (fun n _ => March.knownTime_ne_bot hc.nonneg n)
      (Field.around_symm hk hn) ?_).ne hvn
    rwa [March.knownTime, if_pos hkn]
  obtain ⟨k, hk, hget⟩ := Array.mem_iff_getElem.mp hseed
  refine Field.forall_of_around hspread (hsize ▸ hk) ?_
  by_contra hn
  rw [Bool.not_eq_true] at hn
  have := htop k hn
  rw [hc.seed k (by simp [hk, hget])] at this
  exact absurd this EReal.zero_ne_top

theorem isSolution_of_done (h : Leads f Least (start seeds) p) (hd : p.Done)
    (hseed : true ∈ seeds) : f.IsSolution seeds p.march.valueOf := by
  obtain ⟨hr, hl, hc⟩ := causal_leads hf hsize h
  have hall := isKnown_of_done hf hsize h hd hseed
  have hknown : p.march.knownTime = p.march.valueOf := by
    funext k
    unfold March.knownTime
    split
    · rfl
    · rename_i hk
      have := hr.lt_of_unknown (eq_false_of_ne_true hk)
      exact absurd (hall k (hsize ▸ this)) hk
  refine hf.isSolution (fun k hk => ?_)
    (fun k _ => ne_bot_of_le_ne_bot EReal.bot_lt_zero.ne' (hc.nonneg k)) (fun k _ => hc.seed k)
    fun k hk hs => ?_
  · have hlt := hl.arrived k ((hr.mem_settled k).mpr ⟨hsize ▸ hk, hall k hk⟩)
    exact (Exact.lt_iff.mp hlt).ne
  · have := hc.solved k hk hs (Or.inl (hall k hk))
    rwa [March.upwindTime, hknown] at this

theorem exists_advance : ∃ m p, (begin seeds).advance f = .ok m ∧
    Leads f First (start seeds) p ∧ p.march = m ∧ p.Done := by
  have hends := ends_first f seeds
  cases hm : (begin seeds).advance f with
  | ok m =>
    rw [hm] at hends
    obtain ⟨p, h, hp, hd⟩ := hends
    exact ⟨m, p, rfl, h, hp, hd⟩
  | error e =>
    rw [hm] at hends
    obtain ⟨p, h, hfails⟩ := hends
    obtain ⟨-, -, hc⟩ := causal_leads hf hsize (h.mono least_of_first)
    exact absurd hfails (hc.not_fails hf)

end Leads

end Stage

end Eikonal.FastMarching
