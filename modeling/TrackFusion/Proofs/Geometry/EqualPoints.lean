import TrackFusion.Proofs.Geometry.SignedZeros
import TrackFusion.Proofs.Geometry.Grids
import TrackFusion.Proofs.Geometry.OffAxis

/-!
# Hulls of equal points

Points that compare as equal may differ in the signs of zeros, which the total order tells apart and
nothing else does. So they have equal hulls, unless the points on the axis come in an order that does
harm.

* `IsDyadic`: points that are computed with exactly.
* `AxisHarmless`: the order of the points on the axis does no harm, as if they are sorted upwards
  (`SortsUpwards.axisHarmless`).
* `isSortedOffAxis_map_value`: sorted doubles stand for numbers that are sorted off the axis.
* `isRotated_iff_axisHarmless`: the hull of these numbers.
* `sameHull_iff`: the hulls of equal points.
-/

namespace TrackFusion

open Binary64 (value)

variable {ps qs : List (Point Float)} {a z p q : Point Float}

/-! ### Numbers that points stand for -/

/-- A point with finite coordinates. -/
def Point.IsFinite (p : Point Float) : Prop := p.x.isFinite = true ∧ p.y.isFinite = true

theorem Point.IsFinite.isNumber (h : p.IsFinite) : p.IsNumber :=
  ⟨(Binary64.finite_iff.2 h.1).isNaN, (Binary64.finite_iff.2 h.2).isNaN⟩

theorem Point.beq_iff_map_value (hp : p.IsFinite) (hq : q.IsFinite) :
    (p == q) = true ↔ p.map value = q.map value := by
  rw [beq_iff, map, map, mk.injEq, Binary64.value_eq_iff hp.1 hq.1, Binary64.value_eq_iff hp.2 hq.2]

/-- **Doubles in order stand for numbers in order**, but for zeros. -/
theorem Point.order_value (hp : p.IsFinite) (hq : q.IsFinite) (h : p.order q ≠ .gt) :
    (p.map value).x < (q.map value).x ∨ (p.map value).x = (q.map value).x ∧
      ((p.map value).x = 0 ∨ (p.map value).y ≤ (q.map value).y) := by
  obtain ⟨hx, hy⟩ := order_ne_gt h
  have hle := OrderedScalar.le_of_order hx hp.isNumber.1 hq.isNumber.1
  rcases ((Binary64.value_le_iff hp.1 hq.1).2 hle).lt_or_eq with hlt | heq
  · exact .inl hlt
  · refine .inr ⟨heq, ?_⟩
    rcases Binary64.same_of_beq ((Binary64.value_eq_iff hp.1 hq.1).1 heq) with hsame | ⟨s, s', hs, -⟩
    · -- the same abscissa, so the ordinates decide
      have heq : Scalar.order p.x q.x = .eq := by
        rw [hsame]
        exact Std.ReflCmp.compare_self
      exact .inr ((Binary64.value_le_iff hp.2 hq.2).2
        (OrderedScalar.le_of_order (hy heq) hp.isNumber.2 hq.isNumber.2))
    · left
      show value p.x = 0
      rw [value, hs]
      simp [Binary64.units]

namespace Polygon

/-! ### Sorted doubles -/

theorem sorted_map_value (h : ∀ p ∈ ps, p.IsFinite) : (sorted ps).map (Point.map value) =
    ((ps.mergeSort fun p q => p.order q != .gt).map (Point.map value)).eraseReps := by
  refine (eraseReps_map fun p hp q hq => ?_).symm
  rw [Bool.eq_iff_iff, beq_iff_eq, Point.beq_iff_map_value (h p (List.mem_mergeSort.1 hp))
    (h q (List.mem_mergeSort.1 hq))]

theorem mem_sorted_map_value (h : ∀ p ∈ ps, p.IsFinite) {p : Point ℚ} :
    p ∈ (sorted ps).map (Point.map value) ↔ p ∈ ps.map (Point.map value) := by
  rw [sorted_map_value h, mem_eraseReps, List.mem_map, List.mem_map]
  simp only [List.mem_mergeSort]

theorem isSortedOffAxis_map_value (h : ∀ p ∈ ps, p.IsFinite) :
    IsSortedOffAxis ((sorted ps).map (Point.map value)) := by
  rw [sorted_map_value h]
  refine ⟨List.Pairwise.sublist (eraseReps_spec _).1 (List.pairwise_map.2 ?_), isChain_eraseReps _⟩
  refine (pairwise_mergeSort_order ps).imp_of_mem fun {p q} hp hq hpq => ?_
  exact Point.order_value (h p (List.mem_mergeSort.1 hp)) (h q (List.mem_mergeSort.1 hq)) hpq

/-! ### The axis -/

theorem onAxis_map_value (h : ∀ p ∈ ps, p.IsFinite) :
    onAxis (ps.map (Point.map value)) = (onAxis ps).map (Point.map value) := by
  rw [onAxis, List.filter_map]
  refine congrArg _ (List.filter_congr fun p hp => ?_)
  have hzero := Binary64.value_eq_iff (y := 0) (h p hp).1 rfl
  rw [Binary64.value_zero] at hzero
  show (value p.x == 0) = (p.x == 0)
  rw [Bool.eq_iff_iff, ExactScalar.beq_eq, decide_eq_true_eq]
  exact hzero

theorem head?_eq_of_order {ts : List (Point Float)}
    (hts : ts.Pairwise fun p q => p.order q ≠ .gt) (ha : a ∈ ts)
    (hfirst : ∀ p ∈ ts, a.order p ≠ .gt) : ts.head? = some a := by
  rcases ts with _ | ⟨b, ts⟩
  · cases ha
  · rcases List.mem_cons.1 ha with rfl | ha
    · rfl
    · have hba := (List.pairwise_cons.1 hts).1 a ha
      rw [Point.eq_of_order Binary64.eq_of_order hba (hfirst b (by simp))]
      rfl

theorem getLast?_eq_of_order {ts : List (Point Float)}
    (hts : ts.Pairwise fun p q => p.order q ≠ .gt) (hz : z ∈ ts)
    (hlast : ∀ p ∈ ts, p.order z ≠ .gt) : ts.getLast? = some z := by
  have hne := List.ne_nil_of_mem hz
  rw [← List.dropLast_append_getLast hne] at hts hz ⊢
  rw [List.getLast?_concat]
  rcases List.mem_append.1 hz with hz | hz
  · have hzb := (List.pairwise_append.1 hts).2.2 z hz _ (List.mem_singleton_self _)
    rw [Point.eq_of_order Binary64.eq_of_order hzb (hlast _ (List.getLast_mem hne))]
  · rw [List.mem_singleton.1 hz]

theorem exists_order_bounds {ts : List (Point Float)}
    (hts : ts.Pairwise fun p q => p.order q ≠ .gt) (hne : ts ≠ []) :
    ∃ a ∈ ts, ∃ z ∈ ts, ∀ p ∈ ts, a.order p ≠ .gt ∧ p.order z ≠ .gt := by
  have hself (p : Point Float) : p.order p ≠ .gt := by
    rw [(Std.ReflCmp.compare_self : p.order p = _)]
    exact nofun
  induction ts with
  | nil => exact absurd rfl hne
  | cons a ts ih =>
    obtain ⟨ha, hrest⟩ := List.pairwise_cons.1 hts
    rcases eq_or_ne ts [] with rfl | hne'
    · exact ⟨a, by simp, a, by simp, by simp [hself]⟩
    · obtain ⟨_, _, z, hz, hbounds⟩ := ih hrest hne'
      refine ⟨a, by simp, z, List.mem_cons_of_mem a hz, fun p hp => ?_⟩
      rcases List.mem_cons.1 hp with rfl | hp
      · exact ⟨hself p, ha z hz⟩
      · exact ⟨ha p hp, (hbounds p hp).2⟩

/-- The points on the axis come from `a` to `z`. -/
def AxisEnds (ps : List (Point Float)) (a z : Point Float) : Prop :=
  ∀ p ∈ onAxis ps, a.order p ≠ .gt ∧ p.order z ≠ .gt

/-- The order of the points on the axis does no harm. -/
def AxisHarmless (ps : List (Point Float)) : Prop :=
  ∀ a ∈ onAxis ps, ∀ z ∈ onAxis ps, AxisEnds ps a z → Harmless ps a z

instance : Decidable (AxisEnds ps a z) := inferInstanceAs (Decidable (∀ p ∈ onAxis ps, _ ∧ _))

instance : Decidable (AxisHarmless ps) :=
  inferInstanceAs (Decidable (∀ a ∈ onAxis ps, ∀ z ∈ onAxis ps, _ → _))

/-- What is sorted upwards goes from the lowest point to the highest one, which does no harm. -/
theorem SortsUpwards.axisHarmless (h : SortsUpwards ps) (hnum : ∀ p ∈ ps, p.IsNumber) :
    AxisHarmless ps := by
  have hup {p q : Point Float} (hp : p ∈ onAxis ps) (hq : q ∈ onAxis ps)
      (hpq : p.order q ≠ .gt) : p.y ≤ q.y := by
    obtain ⟨hp, hpx⟩ := List.mem_filter.1 hp
    obtain ⟨hq, hqx⟩ := List.mem_filter.1 hq
    cases hx : Scalar.order p.x q.x with
    | lt =>
      refine h p hp q hq ?_ hx
      rw [(Binary64.same_of_beq hpx).beq (Binary64.same_of_beq hqx)]
      rfl
    | eq =>
      exact OrderedScalar.le_of_order ((Point.order_ne_gt hpq).2 hx) (hnum p hp).2 (hnum q hq).2
    | gt => exact absurd hx (Point.order_ne_gt hpq).1
  intro a ha z hz hends
  exact .inl ⟨.inr fun p hp => hup ha hp (hends p hp).1, .inr fun p hp => hup hp hz (hends p hp).2⟩

/-- The points on the axis, in the total order. -/
theorem onAxis_mergeSort (ps : List (Point Float)) :
    ((onAxis (ps.mergeSort fun p q => p.order q != .gt)).Pairwise fun p q => p.order q ≠ .gt) ∧
      ∀ p, p ∈ onAxis (ps.mergeSort fun p q => p.order q != .gt) ↔ p ∈ onAxis ps := by
  refine ⟨(pairwise_mergeSort_order ps).filter _, fun p => ?_⟩
  rw [onAxis, onAxis, List.mem_filter, List.mem_filter, List.mem_mergeSort]

theorem exists_axisEnds (h : onAxis ps ≠ []) :
    ∃ a ∈ onAxis ps, ∃ z ∈ onAxis ps, AxisEnds ps a z := by
  obtain ⟨hsort, hmem⟩ := onAxis_mergeSort ps
  obtain ⟨p, hp⟩ := List.exists_mem_of_ne_nil _ h
  obtain ⟨a, ha, z, hz, hbounds⟩ :=
    exists_order_bounds hsort (List.ne_nil_of_mem ((hmem p).2 hp))
  exact ⟨a, (hmem a).1 ha, z, (hmem z).1 hz, fun p hp => hbounds p ((hmem p).2 hp)⟩

/-- Sorted doubles begin and end on the axis where the points do. -/
theorem ends_map_value (hps : ∀ p ∈ ps, p.IsFinite) (ha : a ∈ onAxis ps) (hz : z ∈ onAxis ps)
    (h : AxisEnds ps a z) :
    (onAxis ((sorted ps).map (Point.map value))).head? = some (a.map value) ∧
      (onAxis ((sorted ps).map (Point.map value))).getLast? = some (z.map value) := by
  obtain ⟨hsort, hmem⟩ := onAxis_mergeSort ps
  have hhead := head?_eq_of_order hsort ((hmem a).2 ha) fun p hp => (h p ((hmem p).1 hp)).1
  have hlast := getLast?_eq_of_order hsort ((hmem z).2 hz) fun p hp => (h p ((hmem p).1 hp)).2
  have hmap : onAxis ((ps.mergeSort fun p q => p.order q != .gt).map (Point.map value)) =
      (onAxis (ps.mergeSort fun p q => p.order q != .gt)).map (Point.map value) :=
    onAxis_map_value fun p hp => hps p (List.mem_mergeSort.1 hp)
  rw [sorted_map_value hps]
  constructor
  · rw [onAxis, head?_filter_eraseReps, ← onAxis, hmap, List.head?_map, hhead]
    rfl
  · rw [onAxis, getLast?_filter_eraseReps, ← onAxis, hmap, List.getLast?_map, hlast]
    rfl

theorem harmless_map_value (h : ∀ p ∈ ps, p.IsFinite) (ha : a.IsFinite) (hz : z.IsFinite) :
    Harmless (ps.map (Point.map value)) (a.map value) (z.map value) ↔ Harmless ps a z := by
  have haxis : ∀ p ∈ onAxis ps, p.IsFinite := fun p hp => h p (List.mem_filter.1 hp).1
  have hleft : (∃ p ∈ ps.map (Point.map value), p.x < 0) ↔ ∃ p ∈ ps, p.x < 0 := by
    simp only [List.mem_map, exists_exists_and_eq_and]
    refine exists_congr fun p => and_congr_right fun hp => ?_
    have hlt := Binary64.value_lt_iff (y := 0) (h p hp).1 rfl
    rwa [Binary64.value_zero] at hlt
  have hright : (∃ p ∈ ps.map (Point.map value), 0 < p.x) ↔ ∃ p ∈ ps, 0 < p.x := by
    simp only [List.mem_map, exists_exists_and_eq_and]
    refine exists_congr fun p => and_congr_right fun hp => ?_
    have hlt := Binary64.value_lt_iff (x := 0) rfl (h p hp).1
    rwa [Binary64.value_zero] at hlt
  have hbelow {b : Point Float} (hb : b.IsFinite) :
      (∀ p ∈ onAxis (ps.map (Point.map value)), (b.map value).y ≤ p.y) ↔
        ∀ p ∈ onAxis ps, b.y ≤ p.y := by
    rw [onAxis_map_value h, List.forall_mem_map]
    exact forall₂_congr fun p hp => Binary64.value_le_iff hb.2 (haxis p hp).2
  have habove {b : Point Float} (hb : b.IsFinite) :
      (∀ p ∈ onAxis (ps.map (Point.map value)), p.y ≤ (b.map value).y) ↔
        ∀ p ∈ onAxis ps, p.y ≤ b.y := by
    rw [onAxis_map_value h, List.forall_mem_map]
    exact forall₂_congr fun p hp => Binary64.value_le_iff (haxis p hp).2 hb.2
  have hswap := forall₂_and.trans ((and_congr (hbelow hz) (habove ha)).trans forall₂_and.symm)
  exact or_congr (and_congr (or_congr hleft (hbelow ha)) (or_congr hright (habove hz))) hswap

/-- **The way around the numbers that sorted doubles stand for** is that of sorted numbers just if
the order of the points on the axis does no harm. -/
theorem isRotated_iff_axisHarmless (h : ∀ p ∈ ps, p.IsFinite) :
    (circuit ((sorted ps).map (Point.map value))).IsRotated
      (circuit (sorted (ps.map (Point.map value)))) ↔ AxisHarmless ps := by
  have hoff := isSortedOffAxis_map_value h
  have hmem (p : Point ℚ) : p ∈ (sorted ps).map (Point.map value) ↔
      p ∈ sorted (ps.map (Point.map value)) := by
    rw [mem_sorted_map_value h, mem_sorted]
  have haxis {p : Point Float} (hp : p ∈ onAxis ps) : p.IsFinite := h p (List.mem_filter.1 hp).1
  have hends {a z : Point Float} (ha : a ∈ onAxis ps) (hz : z ∈ onAxis ps)
      (hbounds : AxisEnds ps a z) : (circuit ((sorted ps).map (Point.map value))).IsRotated
        (circuit (sorted (ps.map (Point.map value)))) ↔ Harmless ps a z := by
    obtain ⟨hhead, hlast⟩ := ends_map_value h ha hz hbounds
    rw [isRotated_iff_harmless hoff (sorted_pairwise _) hmem hhead hlast,
      harmless_congr fun p => mem_sorted_map_value h, harmless_map_value h (haxis ha) (haxis hz)]
  rcases eq_or_ne (onAxis ps) [] with hnone | hne
  · -- nothing is out of order
    have hoffAxis : ∀ p ∈ (sorted ps).map (Point.map value), p.x ≠ 0 := by
      intro p hp hx
      have hmem := mem_onAxis.2 ⟨(mem_sorted_map_value h).1 hp, hx⟩
      rw [onAxis_map_value h, hnone] at hmem
      exact absurd hmem List.not_mem_nil
    have heq := half_rightward.eq_of_mem_iff (hoff.leads List.infix_rfl hoffAxis)
      (sorted_pairwise _) hmem
    rw [heq, AxisHarmless, hnone]
    exact iff_of_true (List.IsRotated.refl _) (by simp)
  · refine ⟨fun hrot a ha z hz hbounds => (hends ha hz hbounds).1 hrot, fun hharmless => ?_⟩
    obtain ⟨a, ha, z, hz, hbounds⟩ := exists_axisEnds hne
    exact (hends ha hz hbounds).2 (hharmless a ha z hz hbounds)

/-! ### Points on a grid -/

/-- Points that are computed with exactly. -/
def IsDyadic (ps : List (Point Float)) : Prop := ∃ g : Grid ps.length, ∀ p ∈ ps, g.Mem p

theorem convexHull_map_value {n : ℕ} {g : Grid n} (h : ∀ p ∈ ps, g.Mem p) :
    (convexHull ps).map (Point.map value) = circuit ((sorted ps).map (Point.map value)) := by
  rw [convexHull_eq_circuit,
    circuit_map (Grid.keepsTurns fun p hp => h p (sorted_subset ps hp))]

theorem sameHull_iff_isRotated {g : Grid ps.length} (hps : ∀ p ∈ ps, g.Mem p)
    (hqs : ∀ q ∈ qs, g.Mem q) : SameHull ps qs ↔
      (circuit ((sorted ps).map (Point.map value))).IsRotated
        (circuit ((sorted qs).map (Point.map value))) := by
  have hfin {p : Point Float} (hp : g.Mem p) : p.IsFinite := ⟨hp.1.isFinite, hp.2.isFinite⟩
  have hp : ∀ p ∈ convexHull ps, g.Mem p := fun p hp => hps p (convexHull_subset ps hp)
  have hq : ∀ q ∈ convexHull qs, g.Mem q := fun q hq => hqs q (convexHull_subset qs hq)
  have hvertices (k : ℕ) : List.Forall₂ (fun p q => (p == q) = true) ((convexHull ps).rotate k)
      (convexHull qs) ↔ ((convexHull ps).map (Point.map value)).rotate k =
        (convexHull qs).map (Point.map value) := by
    rw [← List.map_rotate]
    exact forall₂_iff_map_eq fun p hpk q hqk =>
      Point.beq_iff_map_value (hfin (hp p (List.mem_rotate.1 hpk))) (hfin (hq q hqk))
  have hlen : (convexHull ps).length ≤ 2 * ps.length := by
    have hcircuit := length_circuit_le (sorted ps)
    have hsorted := (eraseReps_spec (ps.mergeSort fun p q => p.order q != .gt)).1.length_le
    rw [List.length_mergeSort] at hsorted
    rw [convexHull_eq_circuit]
    exact hcircuit.trans (Nat.mul_le_mul_left 2 hsorted)
  rw [← convexHull_map_value hps, ← convexHull_map_value hqs, SameHull]
  simp only [hvertices]
  exact ⟨fun hsame => hsame.1, fun hrot => ⟨hrot, Grid.area_eq hp hq hlen hrot⟩⟩

/-- **Hulls of equal points.** If they are computed with exactly, and the order of the points on the
axis does no harm to the hull of the one list, that of the other has to do none for the hulls to be
the same. -/
theorem sameHull_iff (h : List.Forall₂ (fun p q => (p == q) = true) ps qs) (hps : IsDyadic ps)
    (hqs : AxisHarmless qs) : SameHull ps qs ↔ AxisHarmless ps := by
  obtain ⟨g, hg⟩ := hps
  have hg' : ∀ q ∈ qs, g.Mem q := forall_mem_of_forall₂ h (fun p q hpq hp => by
    obtain ⟨hx, hy⟩ := Point.beq_iff.1 hpq
    exact ⟨hp.1.of_same (Binary64.same_of_beq hx), hp.2.of_same (Binary64.same_of_beq hy)⟩) hg
  have hfin {p : Point Float} (hp : g.Mem p) : p.IsFinite := ⟨hp.1.isFinite, hp.2.isFinite⟩
  have hvalues : List.Forall₂ (fun p q => (p == q) = true) ps qs ↔
      ps.map (Point.map value) = qs.map (Point.map value) :=
    forall₂_iff_map_eq fun p hp q hq =>
      Point.beq_iff_map_value (hfin (hg p hp)) (hfin (hg' q hq))
  -- both lists are compared with the sorted numbers that they stand for, which are the same
  have hright := (isRotated_iff_axisHarmless fun q hq => hfin (hg' q hq)).2 hqs
  rw [← hvalues.1 h] at hright
  rw [sameHull_iff_isRotated hg hg', ← isRotated_iff_axisHarmless fun p hp => hfin (hg p hp)]
  exact ⟨fun hrot => hrot.trans hright, fun hrot => hrot.trans hright.symm⟩

/-- **Numerically equal points have numerically equal hulls** if what counts as one vertical line is
sorted upwards, whatever the doubles are. Of points that are computed with exactly, they have them
just if the order of the points on the axis does no harm, which points that are sorted upwards never
do. -/
theorem equalPoints_ok (h : List.Forall₂ (fun p q => (p == q) = true) ps qs) :
    (SortsUpwards ps → SortsUpwards qs → SameHull ps qs) ∧
      (IsDyadic ps → AxisHarmless qs → (SameHull ps qs ↔ AxisHarmless ps)) ∧
      (SortsUpwards qs → AxisHarmless qs) := by
  obtain ⟨-, hnum⟩ := isNumber_of_forall₂ h
  exact ⟨sameHull_of_sortsUpwards h, sameHull_iff h, fun hqs => hqs.axisHarmless hnum⟩

/-- A zero of either sign where the points are sorted upwards; and downwards, but between points on
both sides. -/
theorem equalPoints_ok_between :
    (List.Forall₂ (fun p q => (p == q) = true)
        ([⟨-1, 0⟩, ⟨-0.0, 0⟩, ⟨0, 1⟩] : List (Point Float)) [⟨-1, 0⟩, ⟨0, 0⟩, ⟨0, 1⟩] ∧
      SortsUpwards ([⟨-1, 0⟩, ⟨-0.0, 0⟩, ⟨0, 1⟩] : List (Point Float)) ∧
      SameHull [⟨-1, 0⟩, ⟨-0.0, 0⟩, ⟨0, 1⟩] [⟨-1, 0⟩, ⟨0, 0⟩, ⟨0, 1⟩]) ∧
    List.Forall₂ (fun p q => (p == q) = true)
        ([⟨-1, 0⟩, ⟨0, 0⟩, ⟨-0.0, 1⟩, ⟨1, 0⟩] : List (Point Float))
        [⟨-1, 0⟩, ⟨0, 0⟩, ⟨0, 1⟩, ⟨1, 0⟩] ∧
      ¬ SortsUpwards ([⟨-1, 0⟩, ⟨0, 0⟩, ⟨-0.0, 1⟩, ⟨1, 0⟩] : List (Point Float)) ∧
      SameHull [⟨-1, 0⟩, ⟨0, 0⟩, ⟨-0.0, 1⟩, ⟨1, 0⟩] [⟨-1, 0⟩, ⟨0, 0⟩, ⟨0, 1⟩, ⟨1, 0⟩] := by
  refine ⟨⟨by decide +kernel, by decide +kernel, ?_⟩, by decide +kernel, by decide +kernel, ?_⟩
  · exact (equalPoints_ok (by decide +kernel)).1 (by decide +kernel) (by decide +kernel)
  · refine ((equalPoints_ok (by decide +kernel)).2.1 ?_ (by decide +kernel)).2 (by decide +kernel)
    exact ⟨⟨0, 1, by decide, by decide, by decide⟩, by decide +kernel⟩

/-- Without points on the right, the highest one is lost if it does not come last. -/
theorem not_sameHull_triangle : ¬ ∀ ps qs : List (Point Float),
    List.Forall₂ (fun p q => (p == q) = true) ps qs → SameHull ps qs := by
  intro hsame
  have hequal := hsame [⟨-1, 0⟩, ⟨0, 0⟩, ⟨-0.0, 0⟩, ⟨-0.0, 1⟩] [⟨-1, 0⟩, ⟨0, 0⟩, ⟨0, 0⟩, ⟨0, 1⟩]
    (by decide +kernel)
  have hharm : ¬ AxisHarmless [⟨-1, 0⟩, ⟨0, 0⟩, ⟨-0.0, 0⟩, ⟨-0.0, 1⟩] := by decide +kernel
  refine hharm ((sameHull_iff (by decide +kernel) ?_ (by decide +kernel)).1 hequal)
  exact ⟨⟨0, 1, by decide, by decide, by decide⟩, by decide +kernel⟩

end Polygon

end TrackFusion
