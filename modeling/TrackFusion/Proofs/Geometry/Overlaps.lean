import TrackFusion.Proofs.Geometry.Hulls
import TrackFusion.Proofs.Geometry.Intersections
import TrackFusion.Object.Overlap

/-!
# Intersection over union is a ratio

Footprints are hulls, so they are convex, and what two of them share is a part of both.

* `IsStrictlyConvex.isProper`: hulls with three points or more are not flat.
* `clip_self`: a polygon has itself in common with itself.
* `sharedArea_le`: not more than either area is shared.
* `ratio_mem_unitInterval`, `overlap_self`: overlaps are ratios without their cap, and an object
  overlaps itself.
* `overlap_mem_unitInterval`: all of this together.
-/

namespace TrackFusion

open Point (cross)

/-! ### Polygons that turn left everywhere -/

section exact

variable {α : Type} [ExactScalar α] {ps qs : List (Point α)}

theorem IsStrictlyConvex.isProper (h : IsStrictlyConvex ps) (hlen : 3 ≤ ps.length) :
    IsProper ps := by
  refine ⟨h.isConvex, hlen, ?_⟩
  obtain ⟨o, a, b, l, rfl⟩ : ∃ o a b l, ps = o :: a :: b :: l := by
    rcases ps with _ | ⟨o, _ | ⟨a, _ | ⟨b, l⟩⟩⟩
    · simp at hlen
    · simp at hlen
    · simp at hlen
    · exact ⟨o, a, b, l, rfl⟩
  have hcorner : 0 < cross o a b :=
    (List.pairwise_cons.1 (List.triplewise_cons.1 h).1).1 b List.mem_cons_self
  have hrest : IsConvex (o :: b :: l) :=
    h.isConvex.sublist ((List.sublist_cons_self a _).cons_cons o)
  have hsum := twiceArea_cons o a b l
  have hnonneg := hrest.twiceArea_nonneg
  rw [area_eq_of_isConvex h.isConvex]
  linarith

/-- A line that has a polygon to its left cuts nothing off. -/
theorem clipLine_eq_self {line : Point α × Point α} (h : ∀ p ∈ ps, 0 ≤ cross line.1 line.2 p) :
    Polygon.clipLine ps line = ps := by
  have hside : ∀ e ∈ Polygon.edges ps, Polygon.clipSide line.1 line.2 e = [e.1] := by
    intro e he
    obtain ⟨h₁, h₂⟩ := mem_of_mem_edges he
    have hcross : ¬Crosses line e := not_not_intro ⟨fun _ => h _ h₂, fun _ => h _ h₁⟩
    rw [clipSide_eq, if_pos (h _ h₁), if_neg hcross, List.append_nil]
  rw [Polygon.clipLine, List.flatMap_congr hside, ← List.map_eq_flatMap]
  exact List.map_fst_zip (by cases ps <;> simp)

/-- **A convex polygon has itself in common with itself.** -/
theorem clip_self (h : IsConvex ps) : Polygon.clip ps ps = ps := by
  have hlines : ∀ lines : List (Point α × Point α), (∀ e ∈ lines, e ∈ Polygon.edges ps) →
      lines.foldl Polygon.clipLine ps = ps := by
    intro lines
    induction lines with
    | nil => exact fun _ => rfl
    | cons line lines ih =>
      intro hmem
      rw [List.foldl_cons, clipLine_eq_self fun p hp => h.left (hmem line List.mem_cons_self) hp]
      exact ih fun e he => hmem e (List.mem_cons_of_mem _ he)
  exact hlines _ fun _ he => he

end exact

/-! ### Shared areas -/

variable {ps qs : List (Point ℝ)}

/-- **Not more than either area is shared.** -/
theorem sharedArea_le (hps : IsStrictlyConvex ps) (hqs : IsStrictlyConvex qs) :
    Polygon.sharedArea ps qs ≤ min (Polygon.area ps) (Polygon.area qs) := by
  rw [Polygon.sharedArea]
  split
  · exact le_min (abs_nonneg _) (abs_nonneg _)
  · rename_i hlen
    rw [not_or, not_lt, not_lt] at hlen
    have hclip := hps.isConvex.clip qs
    have hsub := region_clip_subset ps qs
    rw [← hqs.isConvex.region_eq (hqs.isProper hlen.2).twiceArea_pos] at hsub
    have hleft := hclip.twiceArea_mono hps.isConvex (hsub.trans Set.inter_subset_left)
    have hright := hclip.twiceArea_mono hqs.isConvex (hsub.trans Set.inter_subset_right)
    rw [area_eq_of_isConvex hclip, area_eq_of_isConvex hps.isConvex,
      area_eq_of_isConvex hqs.isConvex, le_min_iff]
    constructor
    · linarith
    · linarith

theorem sharedArea_self (h : IsConvex ps) : Polygon.sharedArea ps ps = Polygon.area ps := by
  rw [Polygon.sharedArea]
  split
  · rename_i hlen
    rw [or_self] at hlen
    rw [Polygon.area, Polygon.signedArea, if_pos hlen, ExactScalar.abs_eq, abs_zero]
  · rw [clip_self h]

/-! ### Overlaps -/

theorem negligibleArea_pos {α : Type} [ExactScalar α] : (0 : α) < negligibleArea := by
  rw [negligibleArea, ExactScalar.ofScientific_eq]
  norm_num

theorem isStrictlyConvex_footprint {α : Type} [ExactScalar α] (pose : Pose α) (shape : Shape α) :
    IsStrictlyConvex (footprint pose shape) :=
  isStrictlyConvex_convexHull _

variable (poseA : Pose ℝ) (shapeA : Shape ℝ) (poseB : Pose ℝ) (shapeB : Shape ℝ) (minUnion : ℝ)

/-- The area that two objects cover together. -/
noncomputable def unionArea : ℝ :=
  Polygon.area (footprint poseA shapeA) + Polygon.area (footprint poseB shapeB) -
    Polygon.sharedArea (footprint poseA shapeA) (footprint poseB shapeB)

/-- Intersection over union, without the cap at one. -/
noncomputable def ratio : ℝ :=
  if Polygon.area (footprint poseA shapeA) < negligibleArea ∨
      Polygon.area (footprint poseB shapeB) < negligibleArea ∨
      Polygon.sharedArea (footprint poseA shapeA) (footprint poseB shapeB) < negligibleArea ∨
      unionArea poseA shapeA poseB shapeB < minUnion then 0
  else
    Polygon.sharedArea (footprint poseA shapeA) (footprint poseB shapeB) /
      unionArea poseA shapeA poseB shapeB

theorem overlap_eq_min_ratio : overlap poseA shapeA poseB shapeB minUnion =
    min (ratio poseA shapeA poseB shapeB minUnion) 1 := by
  have hcap : min (0 : ℝ) 1 = 0 := min_eq_left zero_le_one
  rw [overlap, ratio]
  simp only [ExactScalar.scalar_min_eq, unionArea]
  split_ifs <;> grind

theorem sharedArea_footprint_le :
    Polygon.sharedArea (footprint poseA shapeA) (footprint poseB shapeB) ≤
      min (Polygon.area (footprint poseA shapeA)) (Polygon.area (footprint poseB shapeB)) :=
  sharedArea_le (isStrictlyConvex_footprint poseA shapeA) (isStrictlyConvex_footprint poseB shapeB)

theorem le_unionArea : max (Polygon.area (footprint poseA shapeA))
    (Polygon.area (footprint poseB shapeB)) ≤ unionArea poseA shapeA poseB shapeB := by
  have hshared := le_min_iff.1 (sharedArea_footprint_le poseA shapeA poseB shapeB)
  rw [unionArea]
  refine max_le ?_ ?_
  · linarith [hshared.2]
  · linarith [hshared.1]

variable {poseA shapeA} in
theorem unionArea_pos (hlarge : negligibleArea ≤ Polygon.area (footprint poseA shapeA)) :
    0 < unionArea poseA shapeA poseB shapeB :=
  negligibleArea_pos.trans_le
    (hlarge.trans ((le_max_left _ _).trans (le_unionArea poseA shapeA poseB shapeB)))

/-- **Also without its cap** an overlap is between zero and one. -/
theorem ratio_mem_unitInterval : ratio poseA shapeA poseB shapeB minUnion ∈ Set.Icc 0 1 := by
  have hshared := sharedArea_footprint_le poseA shapeA poseB shapeB
  have hunion := le_unionArea poseA shapeA poseB shapeB
  rw [ratio]
  split
  · exact ⟨le_rfl, zero_le_one⟩
  · rename_i hgates
    simp only [not_or, not_lt] at hgates
    obtain ⟨hlarge, -, hsome, -⟩ := hgates
    have hpos := unionArea_pos poseB shapeB hlarge
    have hle := (hshared.trans (min_le_left _ _)).trans ((le_max_left _ _).trans hunion)
    exact ⟨div_nonneg (negligibleArea_pos.le.trans hsome) hpos.le, (div_le_one hpos).2 hle⟩

theorem unionArea_self :
    unionArea poseA shapeA poseA shapeA = Polygon.area (footprint poseA shapeA) := by
  rw [unionArea, sharedArea_self (isStrictlyConvex_footprint poseA shapeA).isConvex]
  ring

variable {poseA shapeA minUnion} in
/-- **An object overlaps itself** completely, unless it is too small. -/
theorem overlap_self (hlarge : negligibleArea ≤ Polygon.area (footprint poseA shapeA))
    (hmin : minUnion ≤ Polygon.area (footprint poseA shapeA)) :
    overlap poseA shapeA poseA shapeA minUnion = 1 := by
  have hself := sharedArea_self (isStrictlyConvex_footprint poseA shapeA).isConvex
  have hgates : ¬(Polygon.area (footprint poseA shapeA) < negligibleArea ∨
      Polygon.area (footprint poseA shapeA) < negligibleArea ∨
      Polygon.area (footprint poseA shapeA) < negligibleArea ∨
      Polygon.area (footprint poseA shapeA) < minUnion) := by
    simp only [not_or, not_lt]
    exact ⟨hlarge, hlarge, hlarge, hmin⟩
  rw [overlap_eq_min_ratio, ratio, hself, unionArea_self, if_neg hgates,
    div_self (negligibleArea_pos.trans_le hlarge).ne', min_self]

/-- **Overlaps are ratios.** Two objects share at most the smaller one of their areas, so that
together they cover at least the larger one, the division is never by zero, and the result is
between zero and one without a cap. An object overlaps itself completely, unless it is too small. -/
theorem overlap_mem_unitInterval :
    Polygon.sharedArea (footprint poseA shapeA) (footprint poseB shapeB) ≤
      min (Polygon.area (footprint poseA shapeA)) (Polygon.area (footprint poseB shapeB)) ∧
    max (Polygon.area (footprint poseA shapeA)) (Polygon.area (footprint poseB shapeB)) ≤
      unionArea poseA shapeA poseB shapeB ∧
    (negligibleArea ≤ Polygon.area (footprint poseA shapeA) →
      0 < unionArea poseA shapeA poseB shapeB) ∧
    overlap poseA shapeA poseB shapeB minUnion = ratio poseA shapeA poseB shapeB minUnion ∧
    ratio poseA shapeA poseB shapeB minUnion ∈ Set.Icc 0 1 ∧
    (negligibleArea ≤ Polygon.area (footprint poseA shapeA) →
      minUnion ≤ Polygon.area (footprint poseA shapeA) →
      overlap poseA shapeA poseA shapeA minUnion = 1) := by
  have hratio := ratio_mem_unitInterval poseA shapeA poseB shapeB minUnion
  refine ⟨sharedArea_footprint_le poseA shapeA poseB shapeB,
    le_unionArea poseA shapeA poseB shapeB, unionArea_pos poseB shapeB, ?_, hratio, overlap_self⟩
  rw [overlap_eq_min_ratio, min_eq_left hratio.2]

end TrackFusion
