import TrackFusion.Proofs.Geometry.Circuits
import TrackFusion.Proofs.Geometry.Enclosing

/-!
# Points that are sorted but for a vertical line

Sorted points come in three blocks, those to the left of the axis, on it, and to the right of it. If
only the order on the axis is wrong, the hull depends on the first one and the last one there.

* `onAxis`: the points on the axis.
* `Harmless`: where their order does no harm.
* `IsSortedOffAxis`: points that are sorted, but for those on the axis.
* `isRotated_iff_harmless`: when the way around them is right.
-/

namespace TrackFusion

namespace Polygon

variable {α : Type} [ExactScalar α] {a m z M : Point α}

/-! ### Sides of the axis -/

section sides

variable {β : Type} [Scalar β]

def leftOfAxis (ts : List (Point β)) : List (Point β) := ts.filter fun p => p.x < 0

def onAxis (ts : List (Point β)) : List (Point β) := ts.filter fun p => p.x == 0

def rightOfAxis (ts : List (Point β)) : List (Point β) := ts.filter fun p => 0 < p.x

/-- It does no harm that the points on the axis come from `a` to `z`: `a` is the lowest of them, or
there are points on the left, and `z` is the highest one, or there are points on the right; or else
it is the other way round. -/
def Harmless (ts : List (Point β)) (a z : Point β) : Prop :=
  ((∃ p ∈ ts, p.x < 0) ∨ ∀ p ∈ onAxis ts, a.y ≤ p.y) ∧
      ((∃ p ∈ ts, 0 < p.x) ∨ ∀ p ∈ onAxis ts, p.y ≤ z.y) ∨
    ∀ p ∈ onAxis ts, z.y ≤ p.y ∧ p.y ≤ a.y

theorem harmless_congr {ts us : List (Point β)} (h : ∀ p, p ∈ ts ↔ p ∈ us) (a z : Point β) :
    Harmless ts a z ↔ Harmless us a z := by
  simp only [Harmless, onAxis, List.mem_filter, h]

instance (ts : List (Point β)) (a z : Point β) : Decidable (Harmless ts a z) :=
  inferInstanceAs (Decidable (_ ∧ _ ∨ _))

end sides

/-! ### Points that are sorted off the axis -/

/-- Points that are sorted, but for those on the axis. -/
structure IsSortedOffAxis (ts : List (Point α)) : Prop where
  order : ts.Pairwise fun p q => p.x < q.x ∨ p.x = q.x ∧ (p.x = 0 ∨ p.y ≤ q.y)
  differ : ts.IsChain (· ≠ ·)

section offAxis

variable {ts us : List (Point α)}

@[simp] theorem mem_leftOfAxis {p : Point α} : p ∈ leftOfAxis ts ↔ p ∈ ts ∧ p.x < 0 := by
  rw [leftOfAxis, List.mem_filter, decide_eq_true_eq]

@[simp] theorem mem_onAxis {p : Point α} : p ∈ onAxis ts ↔ p ∈ ts ∧ p.x = 0 := by
  rw [onAxis, List.mem_filter, ExactScalar.beq_eq, decide_eq_true_eq]

@[simp] theorem mem_rightOfAxis {p : Point α} : p ∈ rightOfAxis ts ↔ p ∈ ts ∧ 0 < p.x := by
  rw [rightOfAxis, List.mem_filter, decide_eq_true_eq]

/-- Points from left to right come in three blocks. -/
theorem eq_append_axis (h : ts.Pairwise fun p q => p.x ≤ q.x) :
    leftOfAxis ts ++ onAxis ts ++ rightOfAxis ts = ts := by
  induction ts with
  | nil => rfl
  | cons p ts ih =>
    obtain ⟨hp, hts⟩ := List.pairwise_cons.1 h
    have hrest := ih hts
    rcases lt_trichotomy p.x 0 with hx | hx | hx
    · have hleft : leftOfAxis (p :: ts) = p :: leftOfAxis ts := by simp [leftOfAxis, hx]
      have haxis : onAxis (p :: ts) = onAxis ts := by simp [onAxis, hx.ne]
      have hright : rightOfAxis (p :: ts) = rightOfAxis ts := by simp [rightOfAxis, hx.le]
      rw [hleft, haxis, hright, List.cons_append, List.cons_append, hrest]
    · have hleft : leftOfAxis (p :: ts) = [] := by
        simpa [leftOfAxis, hx] using fun q hq => hx ▸ hp q hq
      have hnone : leftOfAxis ts = [] := by
        simpa [leftOfAxis] using fun q hq => hx ▸ hp q hq
      have haxis : onAxis (p :: ts) = p :: onAxis ts := by simp [onAxis, hx]
      have hright : rightOfAxis (p :: ts) = rightOfAxis ts := by simp [rightOfAxis, hx]
      rw [hnone, List.nil_append] at hrest
      rw [hleft, haxis, hright, List.nil_append, List.cons_append, hrest]
    · have hpos : ∀ q ∈ p :: ts, 0 < q.x := by
        intro q hq
        rcases List.mem_cons.1 hq with rfl | hq
        · exact hx
        · exact hx.trans_le (hp q hq)
      have hleft : leftOfAxis (p :: ts) = [] :=
        List.filter_eq_nil_iff.2 fun q hq => by simpa using (hpos q hq).le
      have haxis : onAxis (p :: ts) = [] :=
        List.filter_eq_nil_iff.2 fun q hq => by simpa using (hpos q hq).ne'
      have hright : rightOfAxis (p :: ts) = p :: ts :=
        List.filter_eq_self.2 fun q hq => by simpa using hpos q hq
      rw [hleft, haxis, hright]
      rfl

namespace IsSortedOffAxis

theorem of_leads (h : ts.Pairwise (Leads Rightward)) : IsSortedOffAxis ts where
  order := h.imp fun {p q} hpq => by
    rcases hpq with hx | ⟨hx, hy⟩
    · exact .inl (sub_pos.1 hx)
    · exact .inr ⟨(sub_eq_zero.1 hx).symm, .inr (sub_pos.1 hy).le⟩
  differ := h.isChain.imp fun p q hpq heq => by
    rw [heq] at hpq
    exact half_rightward.irrefl_leads q hpq

theorem append (h : IsSortedOffAxis ts) :
    leftOfAxis ts ++ onAxis ts ++ rightOfAxis ts = ts :=
  eq_append_axis (h.order.imp fun hpq => hpq.elim le_of_lt fun heq => heq.1.le)

theorem blocks (h : IsSortedOffAxis ts) :
    Blocks (leftOfAxis ts) (onAxis ts) (rightOfAxis ts) := by
  have hx : ts.Pairwise fun p q => p.x ≤ q.x :=
    h.order.imp fun hpq => hpq.elim le_of_lt fun heq => heq.1.le
  exact ⟨fun p hp => (mem_leftOfAxis.1 hp).2, fun p hp => (mem_onAxis.1 hp).2,
    fun p hp => (mem_rightOfAxis.1 hp).2, hx.filter _, hx.filter _⟩

/-- Off the axis, the points are sorted. -/
theorem leads (h : IsSortedOffAxis ts) (hsub : us <:+: ts) (hne : ∀ p ∈ us, p.x ≠ 0) :
    us.Pairwise (Leads Rightward) := by
  have hdiffer : us.IsChain (· ≠ ·) := List.IsChain.infix h.differ hsub
  refine leads_of_isChain ?_ hdiffer
  refine (h.order.sublist hsub.sublist).imp_of_mem fun {p q} hp _ hpq => ?_
  exact hpq.imp_right fun ⟨hx, hy⟩ => ⟨hx, hy.resolve_left (hne p hp)⟩

theorem leftOfAxis_eq (h : IsSortedOffAxis ts) (h' : IsSortedOffAxis us)
    (hmem : ∀ p, p ∈ ts ↔ p ∈ us) : leftOfAxis ts = leftOfAxis us := by
  have hsub {ts : List (Point α)} (h : IsSortedOffAxis ts) : leftOfAxis ts <:+: ts :=
    ⟨[], onAxis ts ++ rightOfAxis ts, by rw [List.nil_append, ← List.append_assoc, h.append]⟩
  exact half_rightward.eq_of_mem_iff (h.leads (hsub h) fun p hp => (h.blocks.left p hp).ne)
    (h'.leads (hsub h') fun p hp => (h'.blocks.left p hp).ne) fun p => by simp [hmem]

theorem rightOfAxis_eq (h : IsSortedOffAxis ts) (h' : IsSortedOffAxis us)
    (hmem : ∀ p, p ∈ ts ↔ p ∈ us) : rightOfAxis ts = rightOfAxis us := by
  have hsub {ts : List (Point α)} (h : IsSortedOffAxis ts) : rightOfAxis ts <:+: ts :=
    ⟨leftOfAxis ts ++ onAxis ts, [], by rw [List.append_nil, h.append]⟩
  exact half_rightward.eq_of_mem_iff (h.leads (hsub h) fun p hp => (h.blocks.right p hp).ne')
    (h'.leads (hsub h') fun p hp => (h'.blocks.right p hp).ne') fun p => by simp [hmem]

end IsSortedOffAxis

/-- Sorted points on the axis go upwards from the first one to the last one. -/
theorem bounds_onAxis (h : us.Pairwise (Leads Rightward)) (hm : (onAxis us).head? = some m)
    (hM : (onAxis us).getLast? = some M) {p : Point α} (hp : p ∈ onAxis us) :
    m.y ≤ p.y ∧ p.y ≤ M.y := by
  have hup : (onAxis us).Pairwise fun p q => p.y < q.y := by
    refine (h.filter _).imp_of_mem fun {p q} hp hq hpq => ?_
    rcases hpq with hx | ⟨-, hy⟩
    · rw [(mem_onAxis.1 hp).2, (mem_onAxis.1 hq).2, sub_zero] at hx
      exact absurd hx (lt_irrefl 0)
    · exact sub_pos.1 hy
  constructor
  · obtain ⟨w, hw⟩ := List.head?_eq_some_iff.1 hm
    rw [hw] at hp hup
    rcases List.mem_cons.1 hp with rfl | hp
    · exact le_rfl
    · exact ((List.pairwise_cons.1 hup).1 p hp).le
  · obtain ⟨w, hw⟩ := List.getLast?_eq_some_iff.1 hM
    rw [hw] at hp hup
    rcases List.mem_append.1 hp with hp | hp
    · exact ((List.pairwise_append.1 hup).2.2 p hp M (by simp)).le
    · exact (List.mem_singleton.1 hp ▸ le_rfl)

/-- **The way around points that are sorted but for those on the axis** is that of sorted points
just if their order does no harm. -/
theorem isRotated_iff_harmless (h : IsSortedOffAxis ts) (hus : us.Pairwise (Leads Rightward))
    (hmem : ∀ p, p ∈ ts ↔ p ∈ us) (ha : (onAxis ts).head? = some a)
    (hz : (onAxis ts).getLast? = some z) :
    (circuit ts).IsRotated (circuit us) ↔ Harmless ts a z := by
  have h' := IsSortedOffAxis.of_leads hus
  -- the lowest point and the highest one are the ends of the sorted points
  have hne : onAxis us ≠ [] :=
    List.ne_nil_of_mem (mem_onAxis.2 (by
      have := mem_onAxis.1 (List.mem_of_head? ha)
      rwa [hmem] at this))
  obtain ⟨m, hm⟩ : ∃ m, (onAxis us).head? = some m := ⟨_, List.head?_eq_some_head hne⟩
  obtain ⟨M, hM⟩ : ∃ M, (onAxis us).getLast? = some M := ⟨_, List.getLast?_eq_some_getLast hne⟩
  have haxis (p : Point α) : p ∈ onAxis ts ↔ p ∈ onAxis us := by simp [hmem]
  have hv : Rearranged (onAxis ts) (onAxis us) a z m M :=
    ⟨ha, hz, hm, hM, haxis, h.blocks.axis, fun p hp => bounds_onAxis hus hm hM ((haxis p).1 hp)⟩
  have hdiffer {ts : List (Point α)} (h : IsSortedOffAxis ts) : (onAxis ts).IsChain (· ≠ ·) :=
    List.IsChain.infix h.differ ⟨leftOfAxis ts, rightOfAxis ts, h.append⟩
  -- off the axis, both lists are the same
  have hleft := h.leftOfAxis_eq h' hmem
  have hright := h.rightOfAxis_eq h' hmem
  have hblocks' := h'.blocks
  have hus' := h'.append
  rw [← hleft, ← hright] at hblocks' hus'
  have hrot := isRotated_circuit_iff h.blocks hblocks' hv (hdiffer h) (hdiffer h')
  rw [h.append, hus'] at hrot
  rw [hrot, Harmless]
  have hl : leftOfAxis ts ≠ [] ↔ ∃ p ∈ ts, p.x < 0 := by simp [leftOfAxis]
  have hr : rightOfAxis ts ≠ [] ↔ ∃ p ∈ ts, 0 < p.x := by simp [rightOfAxis]
  have hlowest {b : Point α} (hb : b ∈ onAxis ts) : b = m ↔ ∀ p ∈ onAxis ts, b.y ≤ p.y :=
    ⟨fun heq p hp => heq ▸ (hv.bounds p hp).1, fun hle => hv.eq_of_y hb hv.lowest_mem
      (le_antisymm (hle m hv.lowest_mem) (hv.bounds b hb).1)⟩
  have hhighest {b : Point α} (hb : b ∈ onAxis ts) : b = M ↔ ∀ p ∈ onAxis ts, p.y ≤ b.y :=
    ⟨fun heq p hp => heq ▸ (hv.bounds p hp).2, fun hle => hv.eq_of_y hb hv.highest_mem
      (le_antisymm (hv.bounds b hb).2 (hle M hv.highest_mem))⟩
  rw [hl, hr, hlowest hv.first_mem, hhighest hv.last_mem, hhighest hv.first_mem,
    hlowest hv.last_mem, and_comm (a := ∀ p ∈ onAxis ts, p.y ≤ a.y), ← forall₂_and]

end offAxis

end Polygon

end TrackFusion
