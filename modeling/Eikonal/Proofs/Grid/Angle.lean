import Eikonal.Grid.Neighbours
import Eikonal.Proofs.Scalar.Exact
import Mathlib.Data.List.Rotate

/-! Counter-clockwise order in exact arithmetic. Ids that were ascending are sorted by angle, and by
id within one direction, and this determines the list. When all directions are turned by one angle,
the ids whose angles pass `π` move from the end of the order to its beginning: the cyclic order
stays the same. -/

namespace Eikonal

theorem sortByAngle_eq_self {α κ : Type} [Scalar α] {direction : κ → Vec α} {l : List κ}
    (h : l.Pairwise fun a b => angleBefore (direction b).angle (direction a).angle = false) :
    sortByAngle direction l = l :=
  List.mergeSort_of_pairwise (h.imp fun hab => by rw [hab]; rfl)

/-- Things are sorted by the order of the angles. -/
theorem not_angleBefore_iff {a b : EReal} : (!angleBefore b a) = true ↔ a ≤ b := by
  simp [angleBefore, Scalar.lt]

theorem not_angleBefore_trans {a b c : EReal} (hab : (!angleBefore b a) = true)
    (hbc : (!angleBefore c b) = true) : (!angleBefore c a) = true := by
  rw [not_angleBefore_iff] at *
  exact hab.trans hbc

theorem not_angleBefore_total (a b : EReal) :
    ((!angleBefore b a) || (!angleBefore a b)) = true := by
  rw [Bool.or_eq_true, not_angleBefore_iff, not_angleBefore_iff]
  exact le_total a b

theorem sortByAngle_sorted {κ : Type} (direction : κ → Vec EReal) (l : List κ) :
    (sortByAngle direction l).Pairwise fun a b => (direction a).angle ≤ (direction b).angle := by
  have hsorted : (sortByAngle direction l).Pairwise fun a b =>
      (!angleBefore (direction b).angle (direction a).angle) = true := by
    refine List.pairwise_mergeSort ?_ ?_ l
    · exact fun _ _ _ => not_angleBefore_trans
    · exact fun _ _ => not_angleBefore_total _ _
  exact hsorted.imp not_angleBefore_iff.mp

section Distinct

variable {κ : Type} {direction : κ → Vec EReal} {θ : κ → ℝ} {l l' : List κ}

/-- Things with distinct angles are sorted strictly. -/
theorem sortByAngle_strictly (hθ : ∀ d ∈ l, (direction d).angle = θ d)
    (hne : l.Pairwise fun a b => θ a ≠ θ b) :
    (sortByAngle direction l).Pairwise fun a b => θ a < θ b := by
  have hperm : (sortByAngle direction l).Perm l := List.mergeSort_perm _ _
  have hne' := (hperm.pairwise_iff fun h => Ne.symm h).mpr hne
  refine ((sortByAngle_sorted direction l).and hne').imp_of_mem fun {a b} ha hb hab => ?_
  rw [hθ a (hperm.subset ha), hθ b (hperm.subset hb), EReal.coe_le_coe_iff] at hab
  exact lt_of_le_of_ne hab.1 hab.2

/-- The order of things with distinct angles does not depend on the order they were in. -/
theorem sortByAngle_eq_of_perm (hθ : ∀ d ∈ l, (direction d).angle = θ d)
    (hne : l.Pairwise fun a b => θ a ≠ θ b) (hl : l'.Perm l) :
    sortByAngle direction l' = sortByAngle direction l := by
  have hsorted' := sortByAngle_strictly (fun d hd => hθ d (hl.subset hd))
    ((hl.pairwise_iff fun h => Ne.symm h).mpr hne)
  have hperm : (sortByAngle direction l').Perm (sortByAngle direction l) :=
    (List.mergeSort_perm _ _).trans (hl.trans (List.mergeSort_perm _ _).symm)
  exact hperm.eq_of_pairwise (fun _ _ _ _ hab hba => absurd hba hab.not_gt) hsorted'
    (sortByAngle_strictly hθ hne)

end Distinct

/-! ### Sorted lists -/

theorem not_sublist_swap {κ : Type} {l : List κ} {a b : κ} (hl : l.Nodup) (h : [a, b].Sublist l) :
    ¬[b, a].Sublist l := by
  induction l with
  | nil => cases h
  | cons x l ih =>
    obtain ⟨hx, hl⟩ := List.nodup_cons.mp hl
    intro h'
    cases h with
    | cons _ h =>
      cases h' with
      | cons _ h' => exact ih hl h h'
      | cons_cons _ h' => exact hx (h.mem (by simp))
    | cons_cons _ h =>
      cases h' with
      | cons _ h' => exact hx (h'.mem (by simp))
      | cons_cons _ h' => exact hx (h.mem (by simp))

theorem pair_sublist_or {κ : Type} {l : List κ} {a b : κ} (ha : a ∈ l) (hb : b ∈ l) (hne : a ≠ b) :
    [a, b].Sublist l ∨ [b, a].Sublist l := by
  induction l with
  | nil => cases ha
  | cons x l ih =>
    rcases List.mem_cons.mp ha with rfl | ha'
    · have hb' := List.mem_of_ne_of_mem hne.symm hb
      exact Or.inl (.cons_cons a (List.singleton_sublist.mpr hb'))
    · rcases List.mem_cons.mp hb with rfl | hb'
      · exact Or.inr (.cons_cons b (List.singleton_sublist.mpr ha'))
      · exact (ih ha' hb').imp (.cons x) (.cons x)

/-- The order of ids by the angles `θ`. Of two ids in the same direction the lesser comes first. -/
def Precedes (θ : ℕ → ℝ) (a b : ℕ) : Prop := θ a < θ b ∨ θ a = θ b ∧ a < b

section ByAngle

variable {direction : ℕ → Vec EReal} {θ : ℕ → ℝ} {l l' : List ℕ}

theorem sortByAngle_pairwise (hθ : ∀ d ∈ l, (direction d).angle = θ d)
    (hl : l.Pairwise (· < ·)) : (sortByAngle direction l).Pairwise (Precedes θ) := by
  have hmem : ∀ {d}, d ∈ sortByAngle direction l → d ∈ l := (List.mergeSort_perm _ _).mem_iff.mp
  have hnodup : (sortByAngle direction l).Nodup :=
    (List.mergeSort_perm _ _).nodup_iff.mpr (hl.imp fun h => Nat.ne_of_lt h)
  have hsorted := sortByAngle_sorted direction l
  rw [List.pairwise_iff_forall_sublist] at hsorted hl ⊢
  intro a b hab
  have ha := hmem (hab.mem (List.mem_cons_self))
  have hb := hmem (hab.mem (List.mem_cons_of_mem _ (List.mem_singleton_self b)))
  have hangle := hsorted hab
  rw [hθ a ha, hθ b hb, EReal.coe_le_coe_iff] at hangle
  rcases hangle.lt_or_eq with hlt | heq
  · exact Or.inl hlt
  refine Or.inr ⟨heq, ?_⟩
  -- sorting keeps the order of ids in the same direction
  by_contra hge
  have hne : a ≠ b := by
    rintro rfl
    exact not_sublist_swap hnodup hab hab
  have hba : [b, a].Sublist l := (pair_sublist_or ha hb hne).resolve_left fun h => hge (hl h)
  refine not_sublist_swap hnodup hab (List.pair_sublist_mergeSort
    (fun _ _ _ => not_angleBefore_trans) (fun _ _ => not_angleBefore_total _ _) ?_ hba)
  rw [not_angleBefore_iff, hθ a ha, hθ b hb, heq]

/-- The ascending list is the only one in the order of the angles. -/
theorem eq_sortByAngle (hθ : ∀ d ∈ l, (direction d).angle = θ d) (hl : l.Pairwise (· < ·))
    (hp : l'.Perm l) (h : l'.Pairwise (Precedes θ)) : l' = sortByAngle direction l := by
  refine List.Perm.eq_of_pairwise (fun a b _ _ hab hba => ?_) h (sortByAngle_pairwise hθ hl)
    (hp.trans (List.mergeSort_perm _ _).symm)
  unfold Precedes at hab hba
  rcases hab with hab | ⟨heq, hab⟩ <;> rcases hba with hba | ⟨heq', hba⟩
  · linarith
  · linarith
  · linarith
  · omega

end ByAngle

/-! ### Turns -/

theorem not_of_mem_dropWhile {κ : Type} {p : κ → Bool} {l : List κ}
    (h : l.Pairwise fun a b => p b → p a) {a : κ} (ha : a ∈ l.dropWhile p) : p a = false := by
  induction l with
  | nil => cases ha
  | cons x l ih =>
    obtain ⟨hx, hl⟩ := List.pairwise_cons.mp h
    rw [List.dropWhile_cons] at ha
    split at ha
    · exact ih hl ha
    · rename_i hpx
      rcases List.mem_cons.mp ha with rfl | ha
      · simpa using hpx
      · exact Bool.eq_false_iff.mpr fun hpa => hpx (hx a ha hpa)

theorem Precedes.of_shift {θ θ' : ℕ → ℝ} {a b : ℕ} {s : ℝ} (h : Precedes θ a b)
    (ha : θ' a = θ a + s) (hb : θ' b = θ b + s) : Precedes θ' a b := by
  rcases h with h | ⟨h, hab⟩
  · exact Or.inl (by linarith)
  · exact Or.inr ⟨by linarith, hab⟩

section Turn

open Real

/-- Of two angles the greater is not turned further, and at most one full turn less. -/
theorem turns_le {a a' b b' α : ℝ} {n k : ℤ} (ha : -π < a ∧ a ≤ π) (hb : -π < b ∧ b ≤ π)
    (ha' : -π < a' ∧ a' ≤ π) (hb' : -π < b' ∧ b' ≤ π) (hn : a' = a + (α + 2 * π * n))
    (hk : b' = b + (α + 2 * π * k)) (hab : a ≤ b) : k ≤ n ∧ n ≤ k + 1 := by
  have hπ := pi_pos
  constructor
  · by_contra hlt
    have : (n : ℝ) + 1 ≤ k := by exact_mod_cast not_le.mp hlt
    nlinarith
  · by_contra hlt
    have : (k : ℝ) + 2 ≤ n := by exact_mod_cast (by omega : k + 2 ≤ n)
    nlinarith

variable {direction direction' : ℕ → Vec EReal} {θ θ' : ℕ → ℝ} {l : List ℕ} {α : ℝ}

/-- A turn of all directions by the angle `α` moves the ids whose angles pass `π` from the end of
the order to its beginning, and leaves the order as it is otherwise. -/
theorem sortByAngle_isRotated (hθ : ∀ d ∈ l, (direction d).angle = θ d)
    (hθ' : ∀ d ∈ l, (direction' d).angle = θ' d) (hl : l.Pairwise (· < ·))
    (hr : ∀ d ∈ l, -π < θ d ∧ θ d ≤ π) (hr' : ∀ d ∈ l, -π < θ' d ∧ θ' d ≤ π)
    (hturn : ∀ d ∈ l, ∃ n : ℤ, θ' d = θ d + (α + 2 * π * n)) :
    sortByAngle direction' l ~r sortByAngle direction l := by
  choose! n hn using hturn
  have hmem : ∀ {d}, d ∈ sortByAngle direction l → d ∈ l := (List.mergeSort_perm _ _).mem_iff.mp
  have hperm : (sortByAngle direction l).Perm l := List.mergeSort_perm _ _
  have hsorted := sortByAngle_pairwise hθ hl
  have hwraps : (sortByAngle direction l).Pairwise fun a b => n b ≤ n a ∧ n a ≤ n b + 1 := by
    refine hsorted.imp_of_mem fun {a b} ha hb hab => ?_
    have hle : θ a ≤ θ b := hab.elim le_of_lt fun h => h.1.le
    exact turns_le (hr a (hmem ha)) (hr b (hmem hb)) (hr' a (hmem ha)) (hr' b (hmem hb))
      (hn a (hmem ha)) (hn b (hmem hb)) hle
  generalize sortByAngle direction l = s at *
  cases s with
  | nil => rw [← eq_sortByAngle hθ' hl hperm List.Pairwise.nil]
  | cons h t =>
    -- the ids that are turned as far as the first one come before the others
    let p : ℕ → Bool := fun d => n d = n h
    have hhead : ∀ d ∈ h :: t, n d ≤ n h ∧ n h ≤ n d + 1 := by
      intro d hd
      rcases List.mem_cons.mp hd with rfl | hd
      · omega
      · exact (List.pairwise_cons.mp hwraps).1 d hd
    have htake : ∀ d ∈ (h :: t).takeWhile p, d ∈ l ∧ n d = n h := fun d hd =>
      ⟨hmem ((List.takeWhile_prefix p).subset hd), by simpa [p] using List.mem_takeWhile_imp hd⟩
    have hdrop : ∀ d ∈ (h :: t).dropWhile p, d ∈ l ∧ n d = n h - 1 := by
      intro d hd
      have hin := (List.dropWhile_suffix p).subset hd
      have hne : p d = false := by
        refine not_of_mem_dropWhile (hwraps.imp_of_mem fun {a b} ha hb hab hpb => ?_) hd
        have := hhead a ha
        simp only [p, decide_eq_true_eq] at hpb ⊢
        omega
      have := hhead d hin
      simp only [p, decide_eq_false_iff_not] at hne
      exact ⟨hmem hin, by omega⟩
    have hother : (h :: t).dropWhile p ++ (h :: t).takeWhile p = sortByAngle direction' l := by
      refine eq_sortByAngle hθ' hl ?_ (List.pairwise_append.mpr ⟨?_, ?_, ?_⟩)
      · rw [← List.takeWhile_append_dropWhile (p := p) (l := h :: t)] at hperm
        exact List.perm_append_comm.trans hperm
      · refine (hsorted.sublist (List.dropWhile_sublist p)).imp_of_mem fun {a b} ha hb hab => ?_
        obtain ⟨ha, hna⟩ := hdrop a ha
        obtain ⟨hb, hnb⟩ := hdrop b hb
        exact hab.of_shift (hn a ha) (by rw [hn b hb, hnb, hna])
      · refine (hsorted.sublist (List.takeWhile_sublist p)).imp_of_mem fun {a b} ha hb hab => ?_
        obtain ⟨ha, hna⟩ := htake a ha
        obtain ⟨hb, hnb⟩ := htake b hb
        exact hab.of_shift (hn a ha) (by rw [hn b hb, hnb, hna])
      · intro b hb a ha
        obtain ⟨hb, hnb⟩ := hdrop b hb
        obtain ⟨ha, hna⟩ := htake a ha
        left
        rw [hn a ha, hn b hb, hna, hnb]
        push_cast
        linarith [(hr a ha).1, (hr b hb).2]
    rw [← hother]
    conv_rhs => rw [← List.takeWhile_append_dropWhile (p := p) (l := h :: t)]
    exact List.isRotated_append

end Turn

end Eikonal
