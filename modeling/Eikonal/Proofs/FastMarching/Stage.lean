import Eikonal.FastMarching.Basic
import Mathlib.Logic.Relation
import Mathlib.Tactic.ByContra

/-! The stages of a march. A march moves on in small parts: it skips an entry of the queue, or makes
the node of an entry known, or visits one of the nodes around it. A stage is a march between two
such parts, with the entries that were put into the queue and taken out of it so far and the nodes
in the order in which they became known. Which entry is taken next is left to a rule, so what holds
at every stage holds for every order of the queue that keeps the rule. -/

namespace Eikonal.FastMarching

variable {α : Type} [Scalar α]

namespace March

def valueOf (m : March α) (k : Nat) : α := m.value.getD k Scalar.inf

/-- Gives a node an earlier value and queues it. -/
def lower (m : March α) (k : Nat) (t : α) : March α :=
  { m with value := m.value.setIfInBounds k t, queue := enqueue ⟨t, k⟩ m.queue }

/-- The earlier value that a visit gives a node; nothing if its value stays. -/
def offer (f : Field α) (m : March α) (k : Nat) : Except UpdateError (Option α) :=
  if m.isKnown k then .ok none
  else
    match arrival? f.steps (f.slowness.getD k Scalar.one) (m.leastKnown (f.beside k))
        (m.leastKnown (f.aboveBelow k)) with
    | .error e => .error e
    | .ok none => .ok none
    | .ok (some t) => .ok (if Scalar.lt t (m.valueOf k) then some t else none)

variable {f : Field α} {m m' : March α} {k n : Nat} {t : α}

theorem visit_eq (f : Field α) (m : March α) (k : Nat) :
    m.visit f k = (m.offer f k).map fun o => (o.map (m.lower k)).getD m := by
  unfold visit offer
  split
  · rfl
  · cases arrival? f.steps (f.slowness.getD k Scalar.one) (m.leastKnown (f.beside k))
        (m.leastKnown (f.aboveBelow k)) with
    | error e => rfl
    | ok o =>
      cases o with
      | none => rfl
      | some t =>
        by_cases hlt : Scalar.lt t (m.valueOf k)
        · simp only [if_pos hlt, if_pos (show Scalar.lt t (m.value.getD k Scalar.inf) from hlt)]
          rfl
        · simp only [if_neg hlt, if_neg (show ¬Scalar.lt t (m.value.getD k Scalar.inf) from hlt)]
          rfl

theorem visitAll_cons (f : Field α) (m : March α) (k : Nat) (ks : List Nat) :
    m.visitAll f (k :: ks) = m.visit f k >>= fun m => m.visitAll f ks := by
  rw [visitAll, List.foldlM_cons]
  rfl

theorem advance_nil (h : m.queue = []) : m.advance f = .ok m := by
  rw [advance]
  split <;> simp_all

theorem advance_cons {e : Entry Nat α} {r : List (Entry Nat α)} (h : m.queue = e :: r) :
    m.advance f = m.step f e r >>= fun m => m.advance f := by
  rw [advance]
  split
  · simp_all
  · rename_i e' r' hq
    rw [h] at hq
    cases hq
    split
    · rename_i hs
      rw [hs]
      rfl
    · rename_i hs
      rw [hs]
      rfl

theorem offer_eq_some (h : m.offer f k = .ok (some t)) :
    m.isKnown k = false ∧ Scalar.lt t (m.valueOf k) ∧
      arrival? f.steps (f.slowness.getD k Scalar.one) (m.leastKnown (f.beside k))
        (m.leastKnown (f.aboveBelow k)) = .ok (some t) := by
  unfold offer at h
  split at h
  · cases h
  · rename_i hk
    split at h
    · cases h
    · cases h
    · rename_i t' ht
      split at h
      · rename_i hlt
        cases h
        exact ⟨by simpa using hk, hlt, ht⟩
      · cases h

omit [Scalar α] in
theorem isKnown_settle (m : March α) (k n : Nat) :
    (m.settle k).isKnown n = (decide (n = k) || m.isKnown n) := by
  unfold isKnown settle
  by_cases hn : n = k
  · subst hn
    by_cases hlt : n < m.known.size <;> simp [Array.getD, Array.setIfInBounds, hlt]
  · simp only [Array.getD_eq_getD_getElem?, Array.getElem?_setIfInBounds, Ne.symm hn, if_false]
    simp [hn]

omit [Scalar α] in
theorem lt_of_isKnown_eq_false (h : m.isKnown k = false) : k < m.known.size := by
  by_contra hn
  simp [isKnown, Array.getD, hn] at h

theorem valueOf_lower (hk : k < m.value.size) (n : Nat) :
    (m.lower k t).valueOf n = if n = k then t else m.valueOf n := by
  unfold valueOf lower
  simp only [Array.getD_eq_getD_getElem?, Array.getElem?_setIfInBounds]
  by_cases hn : n = k
  · subst hn
    simp [hk]
  · simp [hn, Ne.symm hn]

end March

theorem enqueue_perm (e : Entry Nat α) (q : List (Entry Nat α)) : (enqueue e q).Perm (e :: q) := by
  induction q with
  | nil => exact .rfl
  | cons d q ih =>
    unfold enqueue
    split
    · exact (ih.cons d).trans (.swap e d q)
    · exact .rfl

/-! ### Stages -/

/-- A march between two parts of its way, and what has happened on it. -/
structure Stage (α : Type) where
  march : March α
  /-- The nodes to be visited before another entry is taken. -/
  todo : List Nat := []
  /-- The entries that were put into the queue. -/
  queued : List (Entry Nat α)
  /-- The entries that were taken out of the queue. -/
  taken : List (Entry Nat α) := []
  /-- The known nodes in the order in which they became known. -/
  settled : List Nat := []

/-- A rule says whether an entry may be taken before others. -/
abbrev Rule (α : Type) := Entry Nat α → List (Entry Nat α) → Prop

def anyRule : Rule α := fun _ _ => True

namespace Stage

def start (seeds : Array Bool) : Stage α := { march := begin seeds, queued := (begin seeds).queue }

/-- An entry is taken out of the queue, of which `rest` is left. -/
def take (p : Stage α) (e : Entry Nat α) (rest : List (Entry Nat α)) : Stage α :=
  { p with march := { p.march with queue := rest }, taken := p.taken ++ [e] }

/-- A node becomes known, and the nodes around it are to be visited. -/
def settle (f : Field α) (p : Stage α) (k : Nat) : Stage α :=
  { p with march := p.march.settle k, todo := f.around k, settled := p.settled ++ [k] }

def lower (p : Stage α) (k : Nat) (t : α) (ks : List Nat) : Stage α :=
  { p with march := p.march.lower k t, todo := ks, queued := p.queued ++ [⟨t, k⟩] }

section Nodes

variable {f : Field α} {p : Stage α} {e : Entry Nat α} {rest : List (Entry Nat α)} {k n : Nat}
  {t : α} {ks : List Nat}

@[simp] theorem valueOf_take : (p.take e rest).march.valueOf n = p.march.valueOf n := rfl

@[simp] theorem valueOf_settle : (p.settle f k).march.valueOf n = p.march.valueOf n := rfl

omit [Scalar α] in
@[simp] theorem isKnown_take : (p.take e rest).march.isKnown n = p.march.isKnown n := rfl

omit [Scalar α] in
@[simp] theorem isKnown_settle :
    (p.settle f k).march.isKnown n = (decide (n = k) || p.march.isKnown n) :=
  March.isKnown_settle p.march k n

@[simp] theorem isKnown_lower : (p.lower k t ks).march.isKnown n = p.march.isKnown n := rfl

end Nodes

/-- One part of a march that takes entries by the given rule. -/
inductive Next (f : Field α) (rule : Rule α) (p : Stage α) : Stage α → Prop
  | skip {l r : List (Entry Nat α)} {e : Entry Nat α} : p.todo = [] →
    p.march.queue = l ++ e :: r → rule e (l ++ r) → p.march.isStale e →
      Next f rule p (p.take e (l ++ r))
  | settle {l r : List (Entry Nat α)} {e : Entry Nat α} : p.todo = [] →
    p.march.queue = l ++ e :: r → rule e (l ++ r) → p.march.isStale e = false →
      Next f rule p ((p.take e (l ++ r)).settle f e.cell)
  | keep {k : Nat} {ks : List Nat} : p.todo = k :: ks → p.march.offer f k = .ok none →
    Next f rule p { p with todo := ks }
  | lower {k : Nat} {ks : List Nat} {t : α} : p.todo = k :: ks →
    p.march.offer f k = .ok (some t) → Next f rule p (p.lower k t ks)

/-- Stages that a march comes to from a given one. -/
def Leads (f : Field α) (rule : Rule α) : Stage α → Stage α → Prop :=
  Relation.ReflTransGen (Next f rule)

def Done (p : Stage α) : Prop := p.todo = [] ∧ p.march.queue = []

def Fails (f : Field α) (e : UpdateError) (p : Stage α) : Prop :=
  ∃ k ks, p.todo = k :: ks ∧ p.march.visit f k = .error e

variable {f : Field α} {rule rule' : Rule α} {p q : Stage α} {I : Stage α → Prop} {k : Nat}

theorem Next.mono (hrule : ∀ e l, rule e l → rule' e l) (h : Next f rule p q) :
    Next f rule' p q := by
  cases h with
  | skip h1 h2 h3 h4 => exact .skip h1 h2 (hrule _ _ h3) h4
  | settle h1 h2 h3 h4 => exact .settle h1 h2 (hrule _ _ h3) h4
  | keep h1 h2 => exact .keep h1 h2
  | lower h1 h2 => exact .lower h1 h2

theorem Leads.mono (hrule : ∀ e l, rule e l → rule' e l) (h : Leads f rule p q) :
    Leads f rule' p q := by
  induction h with
  | refl => exact .refl
  | tail _ hstep ih => exact ih.tail (hstep.mono hrule)

/-- What one part keeps holds at all later stages. -/
theorem Leads.invariant (hnext : ∀ p q, I p → Next f rule p q → I q) (h : Leads f rule p q)
    (hp : I p) : I q := by
  induction h with
  | refl => exact hp
  | tail _ hstep ih => exact hnext _ _ ih hstep

/-! ### The march goes through its stages -/

/-- The outcome of a march is that of the stages which lead from `p` to where `stop` holds. -/
def Ends (f : Field α) (rule : Rule α) (stop : Stage α → Prop) (p : Stage α) :
    Except UpdateError (March α) → Prop
  | .ok m => ∃ q, Leads f rule p q ∧ q.march = m ∧ stop q
  | .error e => ∃ q, Leads f rule p q ∧ q.Fails f e

variable {stop : Stage α → Prop} {x : Except UpdateError (March α)}

theorem Ends.of_leads (h : Leads f rule p q) (hq : Ends f rule stop q x) :
    Ends f rule stop p x := by
  cases x with
  | ok m =>
    obtain ⟨r, hr, hm⟩ := hq
    exact ⟨r, h.trans hr, hm⟩
  | error e =>
    obtain ⟨r, hr, hf⟩ := hq
    exact ⟨r, h.trans hr, hf⟩

theorem ends_visitAll (p : Stage α) :
    Ends f rule (fun q => q.todo = []) p (p.march.visitAll f p.todo) := by
  obtain ⟨m, todo, queued, taken, settled⟩ := p
  induction todo generalizing m queued with
  | nil => exact ⟨_, .refl, rfl, rfl⟩
  | cons k ks ih =>
    dsimp only at ih ⊢
    rw [March.visitAll_cons, March.visit_eq]
    cases ho : m.offer f k with
    | error e => exact ⟨_, .refl, k, ks, rfl, by simp [March.visit_eq, ho, Except.map]⟩
    | ok o =>
      cases o with
      | none => exact (ih m queued).of_leads (.single (.keep rfl ho))
      | some t => exact (ih (m.lower k t) _).of_leads (.single (.lower rfl ho))

theorem ends_step {e : Entry Nat α} {r : List (Entry Nat α)} (htodo : p.todo = [])
    (hqueue : p.march.queue = e :: r) (hrule : rule e r) :
    Ends f rule (fun q => q.todo = []) p (p.march.step f e r) := by
  rw [March.step]
  split
  · rename_i hs
    exact ⟨_, .single (.skip (l := []) htodo hqueue hrule hs), rfl, htodo⟩
  · rename_i hs
    exact (ends_visitAll _).of_leads
      (.single (.settle (l := []) htodo hqueue hrule (eq_false_of_ne_true hs)))

/-- A march goes on through stages until its queue is empty, unless a visit fails. The rule must
allow to take the first entry of the queue. -/
theorem ends_advance (hnext : ∀ p q, I p → Next f rule p q → I q)
    (hrule : ∀ p e r, I p → p.march.queue = e :: r → rule e r) (hp : I p) (htodo : p.todo = []) :
    Ends f rule Done p (p.march.advance f) := by
  generalize hm : p.march = m
  induction m using March.advance.induct f generalizing p with
  | case1 m hq =>
    rw [March.advance_nil hq]
    exact ⟨p, .refl, hm, htodo, hm ▸ hq⟩
  | case2 m e r hq err herr =>
    have hstep := ends_step (f := f) htodo (hm ▸ hq) (hrule p e r hp (hm ▸ hq))
    rw [hm, herr] at hstep
    rw [March.advance_cons hq, herr]
    exact hstep
  | case3 m e r hq m' hok ih =>
    have hstep := ends_step (f := f) htodo (hm ▸ hq) (hrule p e r hp (hm ▸ hq))
    rw [hm, hok] at hstep
    obtain ⟨q, hlead, hq', htodo'⟩ := hstep
    rw [March.advance_cons hq, hok]
    exact (ih (hlead.invariant hnext hp) htodo' hq').of_leads hlead

end Stage

end Eikonal.FastMarching
