import Mathlib
import Eikonal.Proofs.Grid.Angle
import Eikonal.Proofs.Grid.Sector
import Eikonal.Proofs.Solver.Certificate
import Eikonal.Proofs.Solver.Distance

/-! Neighbours and wedges. The neighbours of a cell are sorted by their angles, and those that stand
next to each other in this order, the last one closing up with the first, are looked at in pairs. In
exact arithmetic the pairs that pass as wedges are those that turn counter-clockwise by less than a
half turn and have no other neighbour in the sector between them. -/

namespace Eikonal

open Matrix Real

/-! ### Wedges about a point -/

section Wedge

variable {κ : Type} {o : Fin 2 → ℝ} {x : κ → Fin 2 → ℝ} {l l' ring : List κ} {j k : κ}

/-- The neighbours lie in pairwise distinct directions from `o`. -/
def Spread (o : Fin 2 → ℝ) (x : κ → Fin 2 → ℝ) (l : List κ) : Prop :=
  l.Pairwise fun a b => ¬SameRay ℝ (x a - o) (x b - o)

/-- The turn about `o` from the neighbour `j` to the neighbour `k` is counter-clockwise and below a
half turn, by more than the tolerance, and no third neighbour lies strictly inside the sector. -/
structure BoundsWedge (tol : ℝ) (o : Fin 2 → ℝ) (x : κ → Fin 2 → ℝ) (l : List κ) (j k : κ) :
    Prop where
  mem_left : j ∈ l
  mem_right : k ∈ l
  turn : tol * √((x j - o) ⬝ᵥ (x j - o)) * √((x k - o) ⬝ᵥ (x k - o)) <
    signedArea (x j - o) (x k - o)
  empty : ∀ m ∈ l, m ≠ j → m ≠ k → ¬InSector (x j - o) (x k - o) (x m - o)

theorem Spread.ne_zero (h : Spread o x l) {a b : κ} (ha : a ∈ l) (hb : b ∈ l) (hne : a ≠ b) :
    x a - o ≠ 0 := by
  rcases pair_sublist_or ha hb hne with hab | hba
  · intro hzero
    exact List.pairwise_iff_forall_sublist.mp h hab (hzero ▸ .zero_left _)
  · intro hzero
    exact List.pairwise_iff_forall_sublist.mp h hba (hzero ▸ .zero_right _)

theorem Spread.isNext_iff (h : Spread o x l) (hj : j ∈ l) (hk : k ∈ l)
    (hturn : 0 < signedArea (x j - o) (x k - o)) :
    IsNext (fun d => angleOf (x d - o)) l j k ↔
      ∀ m ∈ l, m ≠ j → m ≠ k → ¬InSector (x j - o) (x k - o) (x m - o) := by
  obtain ⟨hj0, hk0⟩ := ne_zero_of_signedArea_pos hturn
  rw [Eikonal.isNext_iff (fun d _ => angleOf_range (x d - o)) hj hk
    ((signedArea_pos_iff hj0 hk0).mp hturn)]
  refine forall₄_congr fun m hm hmj _ => not_congr ?_
  have hm0 := h.ne_zero hm hj hmj
  rw [inSector_iff hturn, signedArea_pos_iff hj0 hm0, signedArea_pos_iff hm0 hk0]

/-- The consecutive pairs of `ring` that pass as wedges about `o` are the wedges that the neighbours
`l` bound, whatever the tolerance is. -/
structure ScansWedges (o : Fin 2 → ℝ) (x : κ → Fin 2 → ℝ) (l ring : List κ) : Prop where
  perm : ring.Perm l
  mem_iff : ∀ tol : ℝ, 0 ≤ tol → ∀ j k, (j, k) ∈ cyclicPairs ring ∧
    Stencil.isWedge (.ofReal o) (.ofReal (x j)) (.ofReal (x k)) tol ↔ BoundsWedge tol o x l j k

/-- The neighbours of a point in counter-clockwise order. -/
noncomputable def ringAbout (o : Fin 2 → ℝ) (x : κ → Fin 2 → ℝ) (l : List κ) : List κ :=
  sortByAngle (fun d => .ofReal (x d - o)) l

theorem Spread.angleOf_ne (h : Spread o x l) :
    l.Pairwise fun a b => angleOf (x a - o) ≠ angleOf (x b - o) :=
  h.imp fun hray heq => hray (sameRay_of_angleOf_eq heq)

theorem Spread.ringAbout_sorted (h : Spread o x l) :
    (ringAbout o x l).Pairwise fun a b => angleOf (x a - o) < angleOf (x b - o) :=
  sortByAngle_strictly (fun d _ => coe_angleOf (x d - o)) h.angleOf_ne

theorem Spread.ringAbout_eq_of_perm (h : Spread o x l) (hl : l'.Perm l) :
    ringAbout o x l' = ringAbout o x l :=
  sortByAngle_eq_of_perm (fun d _ => coe_angleOf (x d - o)) h.angleOf_ne hl

theorem ringAbout_of_length_lt (hl : l.length < 2) : ringAbout o x l = l := by
  refine sortByAngle_eq_self ?_
  match l with
  | [] => exact List.Pairwise.nil
  | [a] => exact List.pairwise_singleton _ a

theorem Spread.scansWedges (h : Spread o x l) : ScansWedges o x l (ringAbout o x l) := by
  have hperm : (ringAbout o x l).Perm l := sortByAngle_perm _ _
  refine ⟨hperm, fun tol htol j k => ?_⟩
  have hnext : IsNext (fun d => angleOf (x d - o)) (ringAbout o x l) j k ↔
      IsNext (fun d => angleOf (x d - o)) l j k := by
    simp only [IsNext, hperm.mem_iff]
  have hpos : tol * √((x j - o) ⬝ᵥ (x j - o)) * √((x k - o) ⬝ᵥ (x k - o)) <
      signedArea (x j - o) (x k - o) → 0 < signedArea (x j - o) (x k - o) :=
    lt_of_le_of_lt (by positivity)
  rw [Stencil.isWedge_ofReal_of_tolerance, ← signedArea_eq,
    mem_cyclicPairs_iff h.ringAbout_sorted, hperm.mem_iff, hperm.mem_iff, hnext]
  constructor
  · rintro ⟨⟨hj, hk, hnext⟩, hturn⟩
    exact ⟨hj, hk, hturn, (h.isNext_iff hj hk (hpos hturn)).mp hnext⟩
  · rintro ⟨hj, hk, hturn, hempty⟩
    exact ⟨⟨hj, hk, (h.isNext_iff hj hk (hpos hturn)).mpr hempty⟩, hturn⟩

end Wedge

/-! ### Lists of neighbours -/

/-- A table of points, one in each row. -/
noncomputable def planeRows (x : Array (Fin 2 → ℝ)) : Array (Array EReal) :=
  x.map fun p => #[(Vec.ofReal p).x, (Vec.ofReal p).y]

/-- The point with an id, which counts from the end if it is below zero. -/
def site (x : Array (Fin 2 → ℝ)) (i : ℤ) : Fin 2 → ℝ :=
  ((place? x.size i).bind fun k => x[k]?).getD 0

section Lists

variable {x : Array (Fin 2 → ℝ)} {l : List ℤ} {c : ℕ}

theorem row_planeRows (x : Array (Fin 2 → ℝ)) (i : ℤ) :
    CellGrid.planePoint (((place? (planeRows x).size i).bind fun k => (planeRows x)[k]?).getD #[]) =
      .ofReal (site x i) := by
  unfold planeRows site
  rw [Array.size_map]
  cases place? x.size i with
  | none => simp [CellGrid.planePoint, Vec.ofReal]
  | some k =>
    rw [Option.bind_some, Option.bind_some, Array.getElem?_map]
    cases x[k]? with
    | none => simp [CellGrid.planePoint, Vec.ofReal]
    | some p => simp [CellGrid.planePoint, Vec.ofReal]

theorem lt_of_place? {n k : ℕ} {i : ℤ} (h : place? n i = some k) : k < n := by
  unfold place? at h
  grind

theorem usable_planeRows {i : ℤ} (hi : (place? x.size i).isSome) :
    2 ≤ (((place? (planeRows x).size i).bind fun k => (planeRows x)[k]?).getD #[]).size := by
  obtain ⟨k, hk⟩ := Option.isSome_iff_exists.mp hi
  rw [planeRows, Array.size_map, hk, Option.bind_some, Array.getElem?_map,
    Array.getElem?_eq_getElem (lt_of_place? hk)]
  simp

theorem isSome_place?_natCast (hc : c < x.size) : (place? x.size c).isSome := by
  simp [place?, hc]

/-- Known ids are put in order about a known cell. -/
theorem orderList_planeRows (hc : c < x.size) (hl : ∀ i ∈ l, (place? x.size i).isSome) :
    orderList (planeRows x) c l = .ok (ringAbout (site x c) (site x) l) := by
  unfold orderList
  dsimp only
  split
  · rename_i hshort
    rw [ringAbout_of_length_lt hshort]
  · rw [if_pos]
    · simp only [row_planeRows, Exact.ofReal_sub, ringAbout]
    · rw [Bool.and_eq_true, List.all_eq_true, decide_eq_true_eq]
      exact ⟨usable_planeRows (isSome_place?_natCast hc), fun i hi =>
        decide_eq_true (usable_planeRows (hl i hi))⟩

theorem getD_map_ofReal (x : Array (Fin 2 → ℝ)) (d : ℕ) :
    (x.map Vec.ofReal).getD d default = .ofReal (site x d) := by
  have hdefault : (default : Vec EReal) = .ofReal 0 := by
    simp [Vec.ofReal, default]
  unfold site
  by_cases hd : d < x.size
  · simp [place?, hd, Array.getD]
  · simp [place?, hd, Array.getD, hdefault]

theorem around_ofTable_eq_ringAbout (t : NeighbourTable) :
    (Mesh.ofTable (x.map Vec.ofReal) t).around c =
      ringAbout (site x c) (fun d : ℕ => site x d) (t.row c) := by
  simp only [Mesh.around_ofTable, getD_map_ofReal, Exact.ofReal_sub, ringAbout]

/-- The wedges of the solver are those that the neighbours bound. -/
theorem mem_wedges_ofTable {t : NeighbourTable} (field : MetricField EReal)
    (h : Spread (site x c) (fun d : ℕ => site x d) (t.row c)) (j k : ℕ) :
    (j, k) ∈ Medium.wedges ⟨.ofTable (x.map Vec.ofReal) t, field⟩ c ↔
      BoundsWedge (1 / 10 ^ 12) (site x c) (fun d : ℕ => site x d) (t.row c) j k := by
  have hpoint : ∀ d, Medium.point ⟨.ofTable (x.map Vec.ofReal) t, field⟩ d = .ofReal (site x d) :=
    getD_map_ofReal x
  rw [Medium.mem_wedges, Medium.around, around_ofTable_eq_ringAbout, hpoint, hpoint, hpoint,
    Stencil.wedgeTolerance_eq]
  exact h.scansWedges.mem_iff _ (by positivity) j k

/-- Every list is put in order about its own cell. -/
theorem getElem?_of_orderLists {α : Type} [Scalar α] {centroids : Array (Array α)}
    {lists rings : List (List ℤ)} (h : orderLists centroids lists = .ok rings)
    (hl : lists[c]? = some l) :
    ∃ ring, rings[c]? = some ring ∧ orderList centroids c l = .ok ring := by
  have hall := mapM_eq_ok_iff.mp h
  obtain ⟨hc, hget⟩ := List.getElem?_eq_some_iff.mp hl
  have hc' : c < rings.length := by
    rw [← hall.length_eq, List.length_zipIdx]
    exact hc
  have hring := hall.get (by simpa using hc) hc'
  simp only [List.get_eq_getElem, List.getElem_zipIdx, Nat.zero_add, hget] at hring
  exact ⟨rings[c], List.getElem?_eq_getElem hc', hring⟩

/-- Lists of known ids are put in order. Where the neighbours of a cell lie in pairwise distinct
directions from it, the consecutive pairs that pass as wedges are exactly the wedges that the
neighbours bound, their order is the same in whichever order they are listed, and the solver scans
the same wedges. -/
theorem scan_visits_wedges {lists : List (List ℤ)} (hcells : lists.length ≤ x.size)
    (hids : ∀ l ∈ lists, ∀ i ∈ l, (place? x.size i).isSome) :
    ∃ rings, orderLists (planeRows x) lists = .ok rings ∧ rings.length = lists.length ∧
      ∀ (c : ℕ) l ring, lists[c]? = some l → rings[c]? = some ring → Spread (site x c) (site x) l →
        ScansWedges (site x c) (site x) l ring ∧
        (∀ lists' rings', orderLists (planeRows x) lists' = .ok rings' →
          ∀ l', lists'[c]? = some l' → l'.Perm l → rings'[c]? = some ring) ∧
        ∀ (t : NeighbourTable) (field : MetricField EReal), (t.row c).map Int.ofNat = l → ∀ j k,
          (j, k) ∈ Medium.wedges ⟨.ofTable (x.map Vec.ofReal) t, field⟩ c ↔
            BoundsWedge (1 / 10 ^ 12) (site x c) (fun d : ℕ => site x d) (t.row c) j k := by
  have hordered : ∀ (c : ℕ) l, lists[c]? = some l → ∀ l', l'.Perm l →
      orderList (planeRows x) c l' = .ok (ringAbout (site x c) (site x) l') := by
    intro c l hl l' hp
    have hc : c < lists.length := (List.getElem?_eq_some_iff.mp hl).1
    exact orderList_planeRows (by omega)
      fun i hi => hids l (List.mem_of_getElem? hl) i (hp.subset hi)
  have hread : orderLists (planeRows x) lists =
      .ok (lists.zipIdx.map fun p => ringAbout (site x p.2) (site x) p.1) := by
    rw [orderLists, mapM_eq_ok_iff, List.forall₂_map_right_iff, List.forall₂_same]
    rintro ⟨l, c⟩ hp
    exact hordered c l (List.mem_zipIdx_iff_getElem?.mp hp) l (.refl l)
  refine ⟨_, hread, by simp, fun c l ring hl hring hspread => ?_⟩
  have hring' : ring = ringAbout (site x c) (site x) l := by
    simpa [hl, eq_comm] using hring
  subst hring'
  refine ⟨hspread.scansWedges, fun lists' rings' hread' l' hl' hp => ?_, ?_⟩
  · obtain ⟨ring', hring', horder⟩ := getElem?_of_orderLists hread' hl'
    rw [hordered c l hl l' hp, hspread.ringAbout_eq_of_perm hp] at horder
    rw [hring', ← Except.ok.inj horder]
  · rintro t field rfl
    exact mem_wedges_ofTable field (List.pairwise_map.mp hspread)

end Lists

/-- A cell with one neighbour at the angle `π` and one a quarter turn on. -/
noncomputable def seamPoints : Array (Fin 2 → ℝ) := #[0, ![-1, 0], ![0, -1]]

theorem site_seamPoints :
    site seamPoints 0 = 0 ∧ site seamPoints 1 = ![-1, 0] ∧ site seamPoints 2 = ![0, -1] := by
  refine ⟨?_, ?_, ?_⟩ <;> simp [site, place?, seamPoints]

/-- The last neighbour in the order bounds a wedge with the first one. -/
theorem scan_visits_wedges_sample :
    ∃ ring, orderLists (planeRows seamPoints) [[1, 2]] = .ok [ring] ∧
      orderLists (planeRows seamPoints) [[2, 1]] = .ok [ring] ∧ (1, 2) ∈ cyclicPairs ring ∧
        Stencil.isWedge (.ofReal 0) (.ofReal ![-1, 0]) (.ofReal ![0, -1])
          ((1 / 10 ^ 12 : ℝ) : EReal) := by
  obtain ⟨h0, h1, h2⟩ := site_seamPoints
  have hspread : Spread (site seamPoints 0) (site seamPoints) [1, 2] := by
    have hray : ¬SameRay ℝ (![-1, 0] : Fin 2 → ℝ) ![0, -1] := by
      rintro (h | h | ⟨r, s, hr, hs, h⟩)
      · simpa using congrFun h 0
      · simpa using congrFun h 1
      · have := congrFun h 0
        simp at this
        exact hr.ne' this
    simpa [Spread, h0, h1, h2] using hray
  obtain ⟨rings, hread, hlength, hscan⟩ := @scan_visits_wedges seamPoints [[1, 2]]
    (by simp [seamPoints]) (by simp [place?, seamPoints])
  obtain ⟨rings', hread', hlength', -⟩ := @scan_visits_wedges seamPoints [[2, 1]]
    (by simp [seamPoints]) (by simp [place?, seamPoints])
  obtain ⟨ring, rfl⟩ := List.length_eq_one_iff.mp hlength
  obtain ⟨ring', rfl⟩ := List.length_eq_one_iff.mp hlength'
  obtain ⟨hring, hother, -⟩ := hscan 0 [1, 2] ring rfl rfl hspread
  obtain rfl : ring' = ring := by
    simpa using hother _ _ hread' [2, 1] rfl (.swap 1 2 [])
  have hwedge : BoundsWedge (1 / 10 ^ 12) (site seamPoints 0) (site seamPoints) [1, 2] 1 2 := by
    refine ⟨by simp, by simp, ?_, fun m hm h1 h2 => ?_⟩
    · norm_num [h0, h1, h2, signedArea_eq]
    · simp [h1, h2] at hm
  obtain ⟨hpair, hpasses⟩ := (hring.mem_iff _ (by positivity) 1 2).mpr hwedge
  rw [Nat.cast_zero, h0, h1, h2] at hpasses
  exact ⟨ring', hread, hread', hpair, hpasses⟩

end Eikonal
