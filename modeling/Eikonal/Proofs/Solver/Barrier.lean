import Eikonal.Proofs.Solver.Sound

/-! Barriers: bounds from below that no update undercuts. An update from values at or above a
barrier is at or above it too, so all values of a run are if those of the start cells are. -/

namespace Eikonal

variable {α : Type} [Scalar α]

/-- No value that a front with values at or above `φ` gives lies below `φ`. -/
def Medium.IsBarrier (m : Medium α) (φ : Nat → α) : Prop :=
  ∀ (f : Front) (u : Array α) (c : Nat) (v : α),
    (∀ d ∈ m.upwind f c, Scalar.le (φ d) (u.getD d Scalar.inf)) → m.tentative? f u c = some v →
      Scalar.le (φ c) v

/-- To be a barrier it is enough not to be undercut by single updates. -/
theorem Medium.isBarrier_of_updates [OrderedScalar α] {m : Medium α} {φ : Nat → α}
    (hline : ∀ (u : Array α) (c j : Nat), j ∈ m.around c →
      Scalar.le (φ j) (u.getD j Scalar.inf) → Scalar.le (φ c) (m.fromLine u c j))
    (htriangle : ∀ (u : Array α) (c : Nat) (p : Nat × Nat), p ∈ cyclicPairs (m.around c) →
      Scalar.le (φ p.1) (u.getD p.1 Scalar.inf) → Scalar.le (φ p.2) (u.getD p.2 Scalar.inf) →
        Scalar.le (φ c) (m.fromTriangle u c p.1 p.2)) : m.IsBarrier φ := by
  intro f u c v hu hv
  rcases exists_candidate hv with ⟨p, hp, rfl⟩ | ⟨j, hj, rfl⟩
  · obtain ⟨hp, hf1, hf2⟩ := mem_upwindPairs.mp hp
    obtain ⟨h1, h2⟩ := mem_of_mem_cyclicPairs hp
    exact htriangle u c p hp (hu _ (mem_upwind.mpr ⟨h1, hf1⟩)) (hu _ (mem_upwind.mpr ⟨h2, hf2⟩))
  · exact hline u c j (mem_upwind.mp hj).1 (hu j hj)

namespace Run

def Above (φ : Nat → α) (r : Run α) : Prop := ∀ c, Scalar.le (φ c) (r.valueOf c)

variable {m : Medium α} {φ : Nat → α} {starts cs : List Nat} {n k : Nat} {r r1 r2 r3 : Run α}
  {e : Entry Nat α} {c : Nat} {v : α} {p : Nat → Prop} {f : Nat → α}

theorem Above.arrival (h : r.Above φ) (hb : m.IsBarrier φ) (hv : r.arrival m c = some v) :
    Scalar.le (φ c) v :=
  hb r.front r.solution c v (fun d _ => h d) hv

theorem Above.accepts (h : r.Above φ) (h1 : Accepts m r e r1) : r1.Above φ := by
  intro c
  rw [h1.valueOf_eq]
  exact h c

theorem Above.reassigned (h : r.Above φ) (h1 : Reassigned n r p f k r1)
    (hf : ∀ d, p d → Scalar.le (φ d) (f d)) : r1.Above φ := by
  intro c
  by_cases hp : p c
  · rw [(h1.inside c hp).2]
    exact hf c hp
  · rw [(h1.outside c hp).2]
    exact h c

theorem Above.widens (h : r1.Above φ) (h1 : Widens m r1 cs r2) (hb : m.IsBarrier φ) :
    r2.Above φ := by
  apply h.reassigned h1
  rintro d ⟨hd, hfar⟩
  obtain ⟨v, hv⟩ := exists_arrival hd hfar
  rw [hv]
  exact h.arrival hb hv

theorem Above.relaxes (h : r2.Above φ) (h1 : Relaxes m r2 r3) (hr : r2.Ready m)
    (hb : m.IsBarrier φ) : r3.Above φ := by
  apply h.reassigned h1
  intro d hd
  obtain ⟨v, hv⟩ := hr.reached d hd
  rw [relaxed, hv]
  exact Scalar.le_lower (h d) (h.arrival hb hv)

variable [OrderedScalar α]

/-- All cells but the start cells begin at infinity. -/
theorem Seeds.above (h : Seeds m starts r1) (hφ : ∀ c, Scalar.isNaN (φ c) = false)
    (hzero : ∀ c ∈ starts, Scalar.le (φ c) Scalar.zero) : r1.Above φ := by
  intro c
  by_cases hc : c ∈ starts
  · rw [h.zero c hc]
    exact hzero c hc
  · have hinf : r1.valueOf c = Scalar.inf := by
      by_cases hn : c < m.mesh.size
      · refine h.coherent.far c (h.far c fun hs => hc ?_)
        exact (h.isAccepted c).mp ((h.coherent.accepted_iff c hn).mpr hs)
      · simp [valueOf, Array.getD, h.coherent.sized.solution, hn]
    rw [hinf]
    exact OrderedScalar.le_inf (hφ c)

/-- A barrier that is not positive at the start cells bounds all values of a solve from below. -/
theorem invariant_above (hb : m.IsBarrier φ) (hφ : ∀ c, Scalar.isNaN (φ c) = false)
    (hzero : ∀ c ∈ starts, Scalar.le (φ c) Scalar.zero) : Invariant m starts (Above φ) where
  seeds h := h.above hφ hzero
  accepts _ h h1 := h.accepts h1
  widens _ h h1 := h.widens h1 hb
  relaxes hr h h1 := h.relaxes h1 hr hb

end Run

end Eikonal
