import Mathlib.Data.List.Forall2

/-! Traversals that may fail: a list is mapped if every item is, and a fold succeeds if every step
does. -/

namespace Eikonal

variable {α β ε : Type}

/-- A chain of two steps succeeds if both do. -/
theorem bind_eq_ok {x : Except ε α} {f : α → Except ε β} {b : β} (h : x >>= f = .ok b) :
    ∃ a, x = .ok a ∧ f a = .ok b := by
  cases x with
  | error e => cases h
  | ok a => exact ⟨a, rfl, h⟩

theorem mapM_eq_ok_iff {f : α → Except ε β} {l : List α} {out : List β} :
    l.mapM f = .ok out ↔ List.Forall₂ (fun a b => f a = .ok b) l out := by
  induction l generalizing out with
  | nil =>
    rw [List.forall₂_nil_left_iff]
    exact ⟨fun h => (Except.ok.inj h).symm, fun h => h ▸ rfl⟩
  | cons a l ih =>
    rw [List.mapM_cons, List.forall₂_cons_left_iff]
    cases ha : f a with
    | error e =>
      constructor
      · intro h
        cases h
      · rintro ⟨b, u, hb, -⟩
        cases hb
    | ok b =>
      cases hl : l.mapM f with
      | error e =>
        constructor
        · intro h
          cases h
        · rintro ⟨c, u, hc, hu, rfl⟩
          rw [ih.mpr hu] at hl
          cases hl
      | ok bs =>
        constructor
        · intro h
          cases h
          exact ⟨b, bs, rfl, ih.mp hl, rfl⟩
        · rintro ⟨c, u, hc, hu, rfl⟩
          rw [ih.mpr hu] at hl
          cases hl
          cases hc
          rfl

theorem mapM_eq_some_iff {f : α → Option β} {l : List α} {out : List β} :
    l.mapM f = some out ↔ List.Forall₂ (fun a b => f a = some b) l out := by
  induction l generalizing out with
  | nil =>
    rw [List.forall₂_nil_left_iff]
    exact ⟨fun h => (Option.some.inj h).symm, fun h => h ▸ rfl⟩
  | cons a l ih =>
    rw [List.mapM_cons, List.forall₂_cons_left_iff]
    simp only [Option.bind_eq_bind, Option.bind_eq_some_iff, ih, Option.pure_def,
      Option.some.injEq]
    constructor
    · rintro ⟨b, hb, u, hu, rfl⟩
      exact ⟨b, u, hb, hu, rfl⟩
    · rintro ⟨b, u, hb, hu, rfl⟩
      exact ⟨b, hb, u, hu, rfl⟩

/-- Every result of a map comes from an item. -/
theorem exists_of_mem_mapM {f : α → Except ε β} {l : List α} {out : List β} {b : β}
    (h : l.mapM f = .ok out) (hb : b ∈ out) : ∃ a ∈ l, f a = .ok b := by
  have hall := mapM_eq_ok_iff.mp h
  obtain ⟨i, hi, rfl⟩ := List.mem_iff_getElem.mp hb
  have hlen := hall.length_eq
  exact ⟨l[i], List.getElem_mem _, hall.get (by omega) hi⟩

theorem mem_mapM_iff {f : α → Except ε β} {l : List α} {out : List β} {b : β}
    (h : l.mapM f = .ok out) : b ∈ out ↔ ∃ a ∈ l, f a = .ok b := by
  refine ⟨exists_of_mem_mapM h, ?_⟩
  rintro ⟨a, ha, hb⟩
  have hall := mapM_eq_ok_iff.mp h
  obtain ⟨i, hi, rfl⟩ := List.mem_iff_getElem.mp ha
  have hlen := hall.length_eq
  have hi' := hall.get hi (by omega)
  rw [List.get_eq_getElem, hb] at hi'
  cases hi'
  exact List.getElem_mem _

/-- Where a fold fails, a step does. -/
theorem exists_of_foldlM_eq_error {f : β → α → Except ε β} {l : List α} {b : β} {e : ε}
    (h : l.foldlM f b = .error e) : ∃ a ∈ l, ∃ b, f b a = .error e := by
  induction l generalizing b with
  | nil => cases h
  | cons a l ih =>
    rw [List.foldlM_cons] at h
    cases ha : f b a with
    | error e' =>
      rw [ha] at h
      cases h
      exact ⟨a, List.mem_cons_self, b, ha⟩
    | ok b' =>
      rw [ha] at h
      obtain ⟨a', ha', hf⟩ := ih h
      exact ⟨a', List.mem_cons_of_mem a ha', hf⟩

/-- Where a partial map takes every item, it maps the first items to the first ones. -/
theorem filterMap_take {f : α → Option β} {l : List α} (h : ∀ a ∈ l, (f a).isSome) (k : Nat) :
    (l.take k).filterMap f = (l.filterMap f).take k ∧ (l.filterMap f).length = l.length := by
  induction l generalizing k with
  | nil => simp
  | cons a l ih =>
    obtain ⟨ha, hl⟩ := List.forall_mem_cons.mp h
    obtain ⟨b, hb⟩ := Option.isSome_iff_exists.mp ha
    cases k with
    | zero => simp [hb, (ih hl 0).2]
    | succ k => simp [hb, (ih hl k).1, (ih hl k).2]

end Eikonal
