import Eikonal.Front
import Eikonal.Proofs.Traversal
import Mathlib.Data.List.TakeWhile

/-! Pruning takes out of a front exactly the enclosed cells among those that are listed, in whatever
order and however often they are listed. Where neighbours list each other, it is enough to list a
cell that has just been accepted and its neighbours: no other cell can have become enclosed. -/

namespace Eikonal

theorem place?_natCast {n k : Nat} (hk : k < n) : place? n k = some k := by
  simp [place?, hk]

namespace Front

@[simp] theorem contains_empty (c : Int) : Front.empty.contains c = false :=
  Std.TreeSet.contains_emptyc

theorem contains_insert (f : Front) (c d : Int) :
    (f.insert c).contains d = (c == d || f.contains d) := by
  simp only [insert, contains, Std.TreeSet.contains_insert]
  rw [Bool.eq_iff_iff]
  simp

theorem contains_erase (f : Front) (c d : Int) :
    (f.erase c).contains d = (c != d && f.contains d) := by
  simp only [erase, contains, Std.TreeSet.contains_erase]
  rw [Bool.eq_iff_iff]
  simp

theorem contains_prune (enclosed : Int → Bool) (cs : List Int) (f : Front) (d : Int) :
    (f.prune enclosed cs).contains d = (f.contains d && !(cs.contains d && enclosed d)) := by
  unfold prune
  induction cs generalizing f with
  | nil => simp
  | cons c cs ih =>
    rw [List.foldl_cons, ih, List.contains_cons]
    by_cases hdc : d = c
    · subst hdc
      split
      · rename_i h
        rw [Bool.and_eq_true] at h
        simp [contains_erase, h]
      · rename_i h
        cases hf : f.contains d
        · simp
        · have he : enclosed d = false := by simpa [hf] using h
          simp [he]
    · have hcd : (d == c) = false := by simpa using hdc
      have hne : (c != d) = true := by simpa using Ne.symm hdc
      split
      · rw [contains_erase, hne, hcd]
        simp
      · rw [hcd]
        simp

/-- Only the listed cells of the front are asked about. -/
theorem prune_congr {e e' : Int → Bool} {cs : List Int} {f : Front}
    (h : ∀ c ∈ cs, f.contains c → e c = e' c) : f.prune e cs = f.prune e' cs := by
  unfold prune
  induction cs generalizing f with
  | nil => rfl
  | cons c cs ih =>
    obtain ⟨hc, hcs⟩ := List.forall_mem_cons.mp h
    have hstep : (f.contains c && e c) = (f.contains c && e' c) := by
      cases hf : f.contains c with
      | false => rfl
      | true => rw [hc hf]
    rw [List.foldl_cons, List.foldl_cons, hstep]
    refine ih fun d hd hkept => hcs d hd ?_
    split at hkept
    · rw [contains_erase, Bool.and_eq_true] at hkept
      exact hkept.2
    · exact hkept

theorem mem_toList {f : Front} {c : Int} : c ∈ f.toList ↔ f.contains c := by
  simp [toList, contains, Std.TreeSet.mem_toList]

theorem toList_eq_of_contains {f g : Front} (h : ∀ c, f.contains c = g.contains c) :
    f.toList = g.toList :=
  (Std.TreeSet.Equiv.of_forall_contains_eq h).toList_eq

/-! ### Tables from outside -/

/-- Every listed neighbour is a cell of the table and lists the cell in turn. -/
def Mutual (table : Array (List Int)) : Prop :=
  ∀ c < table.size, ∀ d ∈ table.getD c [],
    (0 ≤ d ∧ d < table.size) ∧ (c : Int) ∈ table.getD d.toNat []

instance (table : Array (List Int)) : Decidable (Mutual table) :=
  inferInstanceAs (Decidable (∀ c < table.size, ∀ d ∈ table.getD c [],
    (0 ≤ d ∧ d < table.size) ∧ (c : Int) ∈ table.getD d.toNat []))

/-- A neighbour of the cell is not flagged. -/
def IsOpen (table : Array (List Int)) (flags : Array Bool) (c : Nat) : Prop :=
  ∃ d : Nat, (d : Int) ∈ table.getD c [] ∧ flags[d]? = some false

section Table

variable {table : Array (List Int)} {flags : Array Bool} {f : Front} {cs : List Int} {c d r : Nat}

theorem lt_of_mem_row {d : Int} (hd : d ∈ table.getD c []) : c < table.size := by
  by_contra hc
  rw [Array.getD_eq_getD_getElem?, Array.getElem?_eq_none (Nat.not_lt.mp hc)] at hd
  cases hd

theorem IsOpen.lt (h : IsOpen table flags c) : c < table.size := by
  obtain ⟨d, hd, -⟩ := h
  exact lt_of_mem_row hd

theorem Mutual.exists_cell (ht : Mutual table) {d : Int} (hd : d ∈ table.getD c []) :
    ∃ k < table.size, d = (k : Nat) := by
  obtain ⟨⟨h0, hlt⟩, -⟩ := ht c (lt_of_mem_row hd) d hd
  exact ⟨d.toNat, by omega, by omega⟩

theorem Mutual.symm (ht : Mutual table) (hd : (d : Int) ∈ table.getD c []) :
    (c : Int) ∈ table.getD d [] :=
  (ht c (lt_of_mem_row hd) d hd).2

/-- Whether a cell of the table is enclosed has an answer. -/
theorem exists_enclosed? (ht : Mutual table) (hflags : flags.size = table.size)
    (hc : c < table.size) :
    ∃ b, enclosed? table flags c = some b ∧ (b = false ↔ IsOpen table flags c) := by
  have hrow : table[c]? = some (table.getD c []) := by simp [Array.getD, hc]
  have hmap : (table.getD c []).mapM (fun d => do flags[← place? flags.size d]?) =
      some ((table.getD c []).map fun d => flags.getD d.toNat false) := by
    rw [mapM_eq_some_iff, List.forall₂_map_right_iff, List.forall₂_same]
    intro d hd
    obtain ⟨k, hk, rfl⟩ := ht.exists_cell hd
    rw [← hflags] at hk
    simp [place?_natCast hk, hk]
  refine ⟨((table.getD c []).map fun d => flags.getD d.toNat false).all id, ?_, ?_⟩
  · show ((place? table.size c).bind fun i => table[i]?.bind fun l =>
      (l.mapM fun d => do flags[← place? flags.size d]?).bind fun fs => some (fs.all id)) = _
    rw [place?_natCast hc, Option.bind_some, hrow, Option.bind_some, hmap, Option.bind_some]
  · rw [List.all_map, List.all_eq_false]
    constructor
    · rintro ⟨d, hd, hflag⟩
      obtain ⟨k, hk, rfl⟩ := ht.exists_cell hd
      rw [← hflags] at hk
      exact ⟨k, hd, by simpa [hk] using hflag⟩
    · rintro ⟨d, hd, hflag⟩
      exact ⟨d, hd, by simp [hflag]⟩

/-- Where every listed front cell has an answer, the listed cells that are enclosed go. -/
theorem pruneTable_eq_ok
    (h : ∀ c ∈ cs, f.contains c → (enclosed? table flags c).isSome) :
    pruneTable table flags cs f =
      .ok (f.prune (fun c => (enclosed? table flags c).getD false) cs) := by
  have hknown : cs.takeWhile (fun c => !f.contains c || (enclosed? table flags c).isSome) = cs := by
    rw [List.takeWhile_eq_self_iff]
    intro c hc
    cases hf : f.contains c with
    | false => rfl
    | true => simpa using h c hc hf
  unfold pruneTable
  dsimp only
  rw [hknown, if_neg (Nat.lt_irrefl _)]

/-- Pruning leaves the open cells if every other cell of the front is listed. -/
theorem exists_pruneTable (ht : Mutual table) (hflags : flags.size = table.size)
    (hf : ∀ c : Int, f.contains c → ∃ k < table.size, c = (k : Nat))
    (hlisted : ∀ k : Nat, f.contains k → ¬IsOpen table flags k → (k : Int) ∈ cs) :
    ∃ left, pruneTable table flags cs f = .ok left ∧
      ∀ c : Int, left.contains c ↔ ∃ k : Nat, c = k ∧ f.contains k ∧ IsOpen table flags k := by
  have hanswer : ∀ c ∈ cs, f.contains c → (enclosed? table flags c).isSome := by
    intro c _ hc
    obtain ⟨k, hk, rfl⟩ := hf c hc
    obtain ⟨b, hb, -⟩ := exists_enclosed? ht hflags hk
    exact Option.isSome_of_eq_some hb
  refine ⟨_, pruneTable_eq_ok hanswer, fun c => ?_⟩
  rw [contains_prune, Bool.and_eq_true]
  constructor
  · rintro ⟨hc, hkept⟩
    obtain ⟨k, hk, rfl⟩ := hf c hc
    obtain ⟨b, hb, hopen⟩ := exists_enclosed? ht hflags hk
    refine ⟨k, rfl, hc, ?_⟩
    by_contra hclosed
    have hmem : cs.contains (k : Int) := List.contains_iff_mem.mpr (hlisted k hc hclosed)
    have htrue : b = true := by simpa using hopen.not.mpr hclosed
    rw [hb, Option.getD_some, htrue, hmem] at hkept
    cases hkept
  · rintro ⟨k, rfl, hc, hopen⟩
    obtain ⟨b, hb, hiff⟩ := exists_enclosed? ht hflags hopen.lt
    refine ⟨hc, ?_⟩
    rw [hb, Option.getD_some, hiff.mpr hopen, Bool.and_false]
    rfl

/-- Flagging a cell closes only cells that list it. -/
theorem mem_row_of_closed (h : IsOpen table flags c)
    (hclosed : ¬IsOpen table (flags.setIfInBounds r true) c) : (r : Int) ∈ table.getD c [] := by
  obtain ⟨d, hd, hflag⟩ := h
  by_cases hdr : r = d
  · rw [hdr]
    exact hd
  · exact absurd ⟨d, hd, by rw [Array.getElem?_setIfInBounds_ne hdr, hflag]⟩ hclosed

/-- After a cell has been flagged and put on a front of open cells, pruning that cell and its
neighbours leaves the same front as pruning all cells of the front, in whatever order and however
often they are listed: the cells that are still open. -/
theorem prune_near_eq_prune_all {near all : List Int} (ht : Mutual table)
    (hflags : flags.size = table.size) (hr : flags[r]? = some false)
    (hf : ∀ c : Int, f.contains c → ∃ k : Nat, c = k ∧ IsOpen table flags k)
    (hnear : ∀ c : Int, c = r ∨ c ∈ table.getD r [] → c ∈ near)
    (hall : ∀ c : Int, (f.insert r).contains c → c ∈ all) :
    ∃ left left', pruneTable table (flags.setIfInBounds r true) near (f.insert r) = .ok left ∧
      pruneTable table (flags.setIfInBounds r true) all (f.insert r) = .ok left' ∧
      left.toList = left'.toList ∧ ∀ c : Int, left.contains c ↔ ∃ k : Nat, c = k ∧
        (k = r ∨ f.contains k) ∧ IsOpen table (flags.setIfInBounds r true) k := by
  have hsize : (flags.setIfInBounds r true).size = table.size := by
    rw [Array.size_setIfInBounds, hflags]
  have hcontains : ∀ c : Int, (f.insert r).contains c ↔ c = r ∨ f.contains c := by
    intro c
    rw [contains_insert, Bool.or_eq_true, beq_iff_eq, eq_comm]
  have hcells : ∀ c : Int, (f.insert r).contains c → ∃ k < table.size, c = (k : Nat) := by
    intro c hc
    rcases (hcontains c).mp hc with rfl | hc
    · obtain ⟨hlt, -⟩ := Array.getElem?_eq_some_iff.mp hr
      exact ⟨r, hflags ▸ hlt, rfl⟩
    · obtain ⟨k, rfl, hopen⟩ := hf c hc
      exact ⟨k, hopen.lt, rfl⟩
  have hclosed : ∀ k : Nat, (f.insert r).contains k →
      ¬IsOpen table (flags.setIfInBounds r true) k → (k : Int) ∈ near := by
    intro k hk hclosed
    refine hnear k (((hcontains k).mp hk).imp_right fun hk => ?_)
    obtain ⟨k', hk', hopen⟩ := hf k hk
    obtain rfl := Int.ofNat_inj.mp hk'
    -- the cell lists the flagged one, which lists it in turn
    exact ht.symm (mem_row_of_closed hopen hclosed)
  obtain ⟨left, hleft, hkept⟩ := exists_pruneTable ht hsize hcells hclosed
  obtain ⟨left', hleft', hkept'⟩ :=
    exists_pruneTable ht hsize hcells fun k hk _ => hall k hk
  refine ⟨left, left', hleft, hleft', toList_eq_of_contains fun c => ?_, fun c => ?_⟩
  · rw [Bool.eq_iff_iff, hkept, hkept']
  · simp only [hkept, hcontains, Int.ofNat_inj]

/-- Three cells in a row. -/
def rowTable : Array (List Int) := #[[1], [0, 2], [1]]

theorem prune_near_eq_prune_all_sample :
    ∃ left left',
      pruneTable rowTable #[true, true, false] [2, 1, 0, 1] ((empty.insert 0).insert 1) =
        .ok left ∧
      pruneTable rowTable #[true, true, false] ((empty.insert 0).insert 1).toList
        ((empty.insert 0).insert 1) = .ok left' ∧
      left.toList = left'.toList ∧ left.contains 1 ∧ ¬left.contains 0 := by
  have hopen : ∀ c : Int, (empty.insert 0).contains c →
      ∃ k : Nat, c = k ∧ IsOpen rowTable #[true, false, false] k := by
    intro c hc
    rw [contains_insert, contains_empty, Bool.or_false, beq_iff_eq] at hc
    exact ⟨0, hc.symm, 1, by decide, by decide⟩
  have hnear : ∀ c : Int, c = (1 : Nat) ∨ c ∈ rowTable.getD 1 [] → c ∈ [2, 1, 0, 1] := by
    rintro c (rfl | hc)
    · decide
    · simp [rowTable] at hc ⊢
      omega
  have hr : (#[true, false, false] : Array Bool)[1]? = some false := rfl
  obtain ⟨left, left', hleft, hleft', hsame, hkept⟩ :=
    prune_near_eq_prune_all (by decide) (by decide) hr hopen hnear fun c => mem_toList.mpr
  refine ⟨left, left', hleft, hleft', hsame,
    (hkept 1).mpr ⟨1, rfl, Or.inl rfl, 2, by decide, by decide⟩, ?_⟩
  rw [hkept]
  rintro ⟨k, hk, -, d, hd, hflag⟩
  obtain rfl : k = 0 := by omega
  have hd : (d : Int) = 1 := by simpa [rowTable] using hd
  obtain rfl : d = 1 := by omega
  cases hflag

-- the first cell lists the second one, which does not list it and so does not have it pruned
example :
    (pruneTable #[[1], []] #[false, true] [1] ((empty.insert 0).insert 1)).map toList = .ok [0] ∧
      (pruneTable #[[1], []] #[false, true] [0, 1] ((empty.insert 0).insert 1)).map toList =
        .ok [] :=
  ⟨rfl, rfl⟩

end Table

end Front

end Eikonal
