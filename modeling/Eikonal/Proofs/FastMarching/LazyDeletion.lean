import Eikonal.Proofs.FastMarching.Causal
import Eikonal.Proofs.FastMarching.Keyed

/-! Lazy deletion. Outdated entries that stay in the queue of a march cost a bounded number of steps
and change nothing: the march ends as it does with a heap that lowers the value of a node in
place. -/

namespace Eikonal.FastMarching.Stage

/-- Whatever the values are and in whatever order entries are taken, a node becomes known at most
once and keeps its value from then on, no more entries are pushed than there are seeds and four for
each node, and none is taken that was not pushed; so the loop comes to its end, or to a visit that
fails. In exact arithmetic, if entries of the least value are taken first, the nodes become known in
the order of their values, each with the least value that was pushed for it, and all of them if
there is a seed; and the march ends with the values of the march with a heap, which takes the nodes
in the order in which they become known here. -/
theorem lazy_deletion_sound :
    (∀ (α : Type) [Scalar α] (f : Field α) (seeds : Array Bool),
      Ends f anyRule Done (start seeds) ((begin seeds).advance f) ∧
      ∀ p, Leads f anyRule (start seeds) p →
        p.settled.Nodup ∧ (∀ k, k ∈ p.settled ↔ k < seeds.size ∧ p.march.isKnown k) ∧
        (∀ q, Leads f anyRule p q → p.settled <+: q.settled ∧
          ∀ k ∈ p.settled, q.march.valueOf k = p.march.valueOf k) ∧
        p.queued.length ≤ seeds.count true + 4 * seeds.size ∧
        p.queued.Perm (p.taken ++ p.march.queue)) ∧
    ∀ (f : Field EReal) (seeds : Array Bool), f.Regular → seeds.size = f.size →
      (∀ p, Leads f Least (start seeds) p →
        (p.settled.Pairwise fun k n => p.march.valueOf k ≤ p.march.valueOf n) ∧
        (∀ k ∈ p.settled, ⟨p.march.valueOf k, k⟩ ∈ p.queued ∧
          ∀ e ∈ p.queued, e.cell = k → p.march.valueOf k ≤ e.value) ∧
        (p.Done → true ∈ seeds → ∀ k < f.size, p.march.isKnown k)) ∧
      ∃ p d, (begin seeds).advance f = .ok p.march ∧ Leads f First (start seeds) p ∧ p.Done ∧
        KeyedMarch.run f seeds = .ok d ∧ d.value = p.march.value ∧ d.taken = p.settled := by
  refine ⟨fun α _ f seeds => ⟨?_, fun p hlead => ?_⟩, fun f seeds hf hsize =>
    ⟨fun p hlead => ?_, ?_⟩⟩
  · exact ends_advance (p := start seeds) (I := fun _ => True) (fun _ _ _ _ => trivial)
      (fun _ _ _ _ _ => trivial) trivial rfl
  · have hr := (recorded_start seeds).leads hlead
    exact ⟨hr.nodup, hr.mem_settled, fun q hq => hr.frozen hq, hr.length_queued_le, hr.conserved⟩
  · obtain ⟨hr, hl, hc⟩ := causal_leads hf hsize hlead
    refine ⟨hc.sorted, fun k hk => ⟨hl.pushed k (hl.arrived k hk), ?_⟩,
      fun hd hseed => isKnown_of_done hf hsize hlead hd hseed⟩
    rintro e he rfl
    exact Exact.le_iff.mp (hl.current_le he)
  · obtain ⟨m, -, hm, -⟩ := exists_advance hf hsize
    have hrun := KeyedMarch.run_eq f seeds
    rw [hm] at hrun
    obtain ⟨p, d, hlead, rfl, hdone, hd, hvalue, htaken⟩ := hrun
    exact ⟨p, d, hm, hlead, hdone, hd, hvalue, htaken⟩

/-! ### A march that skips entries

Four nodes in two rows, with two seeds on a diagonal. The first seed gives either of the other nodes
a value along one axis and the second one an earlier value from both axes, so that each of the two
is queued twice. -/

section

variable {α : Type} [Scalar α] {f : Field α} {rule : Rule α} {p : Stage α} {k : Nat} {ks : List Nat}
  {t : α}

theorem Next.of_known (htodo : p.todo = k :: ks) (hk : p.march.isKnown k) :
    Next f rule p { p with todo := ks } :=
  .keep htodo (by rw [March.offer, if_pos hk])

theorem Next.of_arrival (htodo : p.todo = k :: ks) (hk : p.march.isKnown k = false)
    (harrival : arrival? f.steps (f.slowness.getD k Scalar.one) (p.march.leastKnown (f.beside k))
      (p.march.leastKnown (f.aboveBelow k)) = .ok (some t))
    (hlt : Scalar.lt t (p.march.valueOf k)) : Next f rule p (p.lower k t ks) := by
  refine .lower htodo ?_
  rw [March.offer, if_neg (ne_true_of_eq_false hk), harrival]
  exact congrArg Except.ok (if_pos hlt)

end

noncomputable def squareField : Field EReal :=
  { rows := 2, columns := 2, steps := ⟨(15 : ℝ), (20 : ℝ)⟩, slowness := #[1, 1, 1, 1] }

def squareSeeds : Array Bool := #[false, true, true, false]

theorem regular_squareField : squareField.Regular := by
  have hone : (1 : EReal) < ⊤ := EReal.coe_lt_top 1
  exact ⟨by norm_num [squareField], EReal.coe_lt_top 15, by norm_num [squareField],
    EReal.coe_lt_top 20, by simp [squareField], by simp [squareField, hone]⟩

theorem arrival_beside :
    arrival? squareField.steps (1 : EReal) 0 ⊤ = .ok (some ((15 : ℝ) : EReal)) := by
  have hlt : Scalar.lt (0 : EReal) Scalar.inf := OrderedScalar.zero_lt_inf
  have htop : ¬Scalar.lt (⊤ : EReal) Scalar.inf := Exact.lt_iff.not.mpr (lt_irrefl _)
  simp only [arrival?, if_pos hlt, if_neg htop, squareField, zero_add, one_mul]

theorem arrival_aboveBelow :
    arrival? squareField.steps (1 : EReal) ⊤ 0 = .ok (some ((20 : ℝ) : EReal)) := by
  have hlt : Scalar.lt (0 : EReal) Scalar.inf := OrderedScalar.zero_lt_inf
  have htop : ¬Scalar.lt (⊤ : EReal) Scalar.inf := Exact.lt_iff.not.mpr (lt_irrefl _)
  simp only [arrival?, if_pos hlt, if_neg htop, squareField, zero_add, one_mul]

theorem arrival_both :
    arrival? squareField.steps (1 : EReal) 0 0 = .ok (some ((12 : ℝ) : EReal)) := by
  have hlt : Scalar.lt (0 : EReal) Scalar.inf := OrderedScalar.zero_lt_inf
  have hd : discriminant 15 20 1 0 0 = (1 / 6) ^ 2 := by
    norm_num [discriminant, leading, linear]
  have hroot : root 15 20 1 0 0 = 12 := by
    rw [root, hd, Real.sqrt_sq (by norm_num)]
    norm_num [leading, linear]
  have hboth : arrivalOfBoth 15 20 1 0 0 = 12 := by
    rw [arrivalOfBoth, hroot, hd, if_pos (by norm_num)]
  have htwo := @twoSided_coe 15 20 1 0 0
  rw [hboth] at htwo
  unfold arrival? squareField
  rw [if_pos hlt, if_pos hlt, square_coe (by norm_num), square_coe (by norm_num)]
  exact congrArg (fun t => Except.ok (some t)) htwo

noncomputable def squareStart : Stage EReal :=
  { march :=
      { value := #[⊤, 0, 0, ⊤]
        known := #[false, false, false, false]
        queue := [⟨0, 1⟩, ⟨0, 2⟩] }
    queued := [⟨0, 1⟩, ⟨0, 2⟩] }

/-- The stage after the visits from the first seed. -/
noncomputable def squareFirst : Stage EReal :=
  { march :=
      { value := #[(15 : ℝ), 0, 0, (20 : ℝ)]
        known := #[false, true, false, false]
        queue := [⟨0, 2⟩, ⟨(15 : ℝ), 0⟩, ⟨(20 : ℝ), 3⟩] }
    queued := [⟨0, 1⟩, ⟨0, 2⟩, ⟨(20 : ℝ), 3⟩, ⟨(15 : ℝ), 0⟩]
    taken := [⟨0, 1⟩]
    settled := [1] }

/-- The stage after the visits from both seeds. -/
noncomputable def squareSecond : Stage EReal :=
  { march :=
      { value := #[(12 : ℝ), 0, 0, (12 : ℝ)]
        known := #[false, true, true, false]
        queue := [⟨(12 : ℝ), 0⟩, ⟨(12 : ℝ), 3⟩, ⟨(15 : ℝ), 0⟩, ⟨(20 : ℝ), 3⟩] }
    queued := [⟨0, 1⟩, ⟨0, 2⟩, ⟨(20 : ℝ), 3⟩, ⟨(15 : ℝ), 0⟩, ⟨(12 : ℝ), 0⟩, ⟨(12 : ℝ), 3⟩]
    taken := [⟨0, 1⟩, ⟨0, 2⟩]
    settled := [1, 2] }

noncomputable def squareEnd : Stage EReal :=
  { march :=
      { value := #[(12 : ℝ), 0, 0, (12 : ℝ)]
        known := #[true, true, true, true]
        queue := [] }
    queued := [⟨0, 1⟩, ⟨0, 2⟩, ⟨(20 : ℝ), 3⟩, ⟨(15 : ℝ), 0⟩, ⟨(12 : ℝ), 0⟩, ⟨(12 : ℝ), 3⟩]
    taken := [⟨0, 1⟩, ⟨0, 2⟩, ⟨(12 : ℝ), 0⟩, ⟨(12 : ℝ), 3⟩, ⟨(15 : ℝ), 0⟩, ⟨(20 : ℝ), 3⟩]
    settled := [1, 2, 0, 3] }

theorem start_squareSeeds : start squareSeeds = squareStart := by
  have hinf : (Scalar.inf : EReal) = ⊤ := rfl
  simp [start, begin, squareSeeds, squareStart, List.range_succ, hinf]

theorem leads_squareFirst : Leads squareField Least squareStart squareFirst := by
  have htake : Next squareField Least squareStart
      ((squareStart.take ⟨0, 1⟩ [⟨0, 2⟩]).settle squareField 1) := by
    refine .settle (l := []) rfl rfl ?_ ?_
    · simp [Least]
    · simp [March.isStale, March.isKnown, squareStart, Scalar.lt]
  refine .head htake (.head (.of_arrival (k := 3) (t := ((20 : ℝ) : EReal)) rfl rfl ?_ ?_)
    (.head (.of_arrival (k := 0) (t := ((15 : ℝ) : EReal)) rfl rfl ?_ ?_) ?_))
  · convert arrival_aboveBelow using 1
    congr 1
  · exact Exact.lt_iff.mpr (EReal.coe_lt_top _)
  · convert arrival_beside using 1
    congr 1
  · exact Exact.lt_iff.mpr (EReal.coe_lt_top _)
  · convert Relation.ReflTransGen.refl
    norm_num [lower, March.lower, settle, take, March.settle, enqueue, Entry.before, squareFirst,
      squareStart, Scalar.lt, Scalar.eq, squareField, @eq_comm EReal 0]

theorem leads_squareSecond : Leads squareField Least squareFirst squareSecond := by
  have htake : Next squareField Least squareFirst
      ((squareFirst.take ⟨0, 2⟩ [⟨(15 : ℝ), 0⟩, ⟨(20 : ℝ), 3⟩]).settle squareField 2) := by
    refine .settle (l := []) rfl rfl ?_ ?_
    · simp [Least]
    · simp [March.isStale, March.isKnown, squareFirst, Scalar.lt]
  refine .head htake (.head (.of_arrival (k := 0) (t := ((12 : ℝ) : EReal)) rfl rfl ?_ ?_)
    (.head (.of_arrival (k := 3) (t := ((12 : ℝ) : EReal)) rfl rfl ?_ ?_) ?_))
  · convert arrival_both using 1
    congr 1
  · exact Exact.lt_iff.mpr (EReal.coe_lt_coe_iff.mpr (by norm_num))
  · convert arrival_both using 1
    congr 1
  · exact Exact.lt_iff.mpr (EReal.coe_lt_coe_iff.mpr (by norm_num))
  · convert Relation.ReflTransGen.refl
    norm_num [lower, March.lower, settle, take, March.settle, enqueue, Entry.before, squareSecond,
      squareFirst, Scalar.lt, Scalar.eq, squareField, Nat.compare_eq_lt]

/-- The other two nodes become known, and the outdated entries of both are skipped. -/
theorem leads_squareEnd : Leads squareField Least squareSecond squareEnd := by
  refine .head (.settle (l := []) rfl rfl ?_ ?_) (.head (.of_known rfl rfl)
    (.head (.of_known rfl rfl) (.head (.settle (l := []) rfl rfl ?_ ?_)
      (.head (.of_known rfl rfl) (.head (.of_known rfl rfl)
        (.head (.skip (l := []) rfl rfl ?_ rfl)
          (.head (.skip (l := []) rfl rfl ?_ rfl) .refl)))))))
  · norm_num [Least]
  · norm_num [March.isStale, March.isKnown, squareSecond, Scalar.lt]
  · norm_num [Least]
  · norm_num [March.isStale, March.isKnown, squareSecond, Scalar.lt, settle, March.settle, take]
  · norm_num [Least]
  · norm_num [Least]

theorem lazy_deletion_sound_sample :
    ∃ p : Stage EReal, Leads squareField Least (start squareSeeds) p ∧ p.Done ∧
      (∃ e ∈ p.taken, e.cell = 0 ∧ p.march.valueOf 0 < e.value) ∧ p.settled.Nodup ∧
      p.queued.length ≤ 18 ∧ (p.settled.Pairwise fun k n => p.march.valueOf k ≤ p.march.valueOf n) ∧
      (∀ k < 4, p.march.isKnown k) ∧
      ∃ (q : Stage EReal) (d : KeyedMarch EReal),
        (begin squareSeeds).advance squareField = .ok q.march ∧
        KeyedMarch.run squareField squareSeeds = .ok d ∧ d.value = q.march.value ∧
        d.taken = q.settled := by
  have hlead : Leads squareField Least (start squareSeeds) squareEnd := by
    rw [start_squareSeeds]
    exact (leads_squareFirst.trans leads_squareSecond).trans leads_squareEnd
  have hstale : squareEnd.march.valueOf 0 < ((15 : ℝ) : EReal) :=
    EReal.coe_lt_coe_iff.mpr (by norm_num)
  obtain ⟨hany, hexact⟩ := lazy_deletion_sound
  obtain ⟨hnodup, -, -, hpushes, -⟩ :=
    (hany EReal squareField squareSeeds).2 squareEnd (hlead.mono fun _ _ _ => trivial)
  obtain ⟨hstages, q, d, hadvance, -, -, hrun, hvalue, htaken⟩ :=
    hexact squareField squareSeeds regular_squareField rfl
  obtain ⟨hsorted, -, hall⟩ := hstages squareEnd hlead
  exact ⟨squareEnd, hlead, ⟨rfl, rfl⟩, ⟨⟨(15 : ℝ), 0⟩, by simp [squareEnd], rfl, hstale⟩, hnodup,
    hpushes, hsorted, hall ⟨rfl, rfl⟩ (by simp [squareSeeds]), q, d, hadvance, hrun, hvalue, htaken⟩

end Eikonal.FastMarching.Stage
