import TrackFusion.Proofs.Geometry.Areas
import TrackFusion.Proofs.Geometry.Crossings

/-!
# Intersections of polygons

Clipping a convex polygon line by line gives a convex polygon inside both, and it gives the whole of
what the two have in common as long as no crossing is dropped on the way. Crossings are dropped by
an absolute bound, which short sides stay below however the lines run.

* `region_clip_subset`: never more than both polygons have in common.
* `KeepsAllCrossings`: no crossing is dropped.
* `IsConvex.region_clip`: all that the polygon has to the left of all lines.
* `IsProper.clip_eq_inter`: intersections, and their areas.
-/

namespace TrackFusion

open MeasureTheory
open Point (cross)

variable {α : Type} [ExactScalar α]

/-- A convex polygon that runs counter-clockwise and is not flat. -/
structure IsProper (ps : List (Point α)) : Prop where
  convex : IsConvex ps
  three_le_length : 3 ≤ ps.length
  area_pos : 0 < Polygon.area ps

theorem IsProper.twiceArea_pos {ps : List (Point α)} (h : IsProper ps) : 0 < twiceArea ps := by
  have hpos := h.area_pos
  rw [area_eq_of_isConvex h.convex] at hpos
  linarith

/-- No crossing is dropped while one line after another cuts a part off. -/
def KeepsAllCrossings : List (Point α) → List (Point α × Point α) → Prop
  | _, [] => True
  | ps, line :: lines =>
    KeepsCrossings ps line ∧ KeepsAllCrossings (Polygon.clipLine ps line) lines

/-! ### All lines -/

variable {ps qs : List (Point ℝ)}

/-- **Never too much**: what is left lies in the polygon and to the left of all lines. -/
theorem region_clip_subset (ps qs : List (Point ℝ)) : region (Polygon.clip ps qs) ⊆
    region ps ∩ {x | ∀ e ∈ Polygon.edges qs, x ∈ leftOf e.1 e.2} := by
  rw [Polygon.clip]
  generalize Polygon.edges qs = lines
  induction lines generalizing ps with
  | nil => exact fun x hx => ⟨hx, fun _ he => absurd he List.not_mem_nil⟩
  | cons line lines ih =>
    intro x hx
    obtain ⟨hx, hlines⟩ := ih (Polygon.clipLine ps line) hx
    obtain ⟨hx, hline⟩ := region_clipLine_subset hx
    exact ⟨hx, List.forall_mem_cons.2 ⟨hline, hlines⟩⟩

/-- **Never too little** if no crossing is dropped. -/
theorem IsConvex.region_clip (h : IsConvex ps)
    (hkeep : KeepsAllCrossings ps (Polygon.edges qs)) : region (Polygon.clip ps qs) =
      region ps ∩ {x | ∀ e ∈ Polygon.edges qs, x ∈ leftOf e.1 e.2} := by
  rw [Polygon.clip]
  generalize Polygon.edges qs = lines at hkeep ⊢
  induction lines generalizing ps with
  | nil => simp
  | cons line lines ih =>
    rw [List.foldl_cons, ih (h.clipLine line) hkeep.2, h.region_clipLine hkeep.1]
    ext x
    simp only [Set.mem_inter_iff, Set.mem_ofPred_eq, List.forall_mem_cons, and_assoc]

/-- The area that is left, as the program computes it. -/
theorem IsConvex.volume_clip (h : IsConvex ps) (qs : List (Point ℝ)) :
    volume (region (Polygon.clip ps qs)) = ENNReal.ofReal (Polygon.area (Polygon.clip ps qs)) := by
  have hclip := h.clip qs
  rw [hclip.volume_region, area_eq_of_isConvex hclip]

/-! ### Two polygons -/

theorem sharedArea_nonneg (ps qs : List (Point ℝ)) : 0 ≤ Polygon.sharedArea ps qs := by
  rw [Polygon.sharedArea]
  split
  · exact le_rfl
  · exact abs_nonneg _

theorem IsProper.volume_clip (hps : IsProper ps) (hqs : IsProper qs) :
    volume (region (Polygon.clip ps qs)) = ENNReal.ofReal (Polygon.sharedArea ps qs) := by
  have hlen : ¬(ps.length < 3 ∨ qs.length < 3) :=
    not_or.2 ⟨hps.three_le_length.not_gt, hqs.three_le_length.not_gt⟩
  rw [hps.convex.volume_clip, Polygon.sharedArea, if_neg hlen]

theorem IsProper.region_clip (hps : IsProper ps) (hqs : IsProper qs)
    (hkeep : KeepsAllCrossings ps (Polygon.edges qs)) :
    region (Polygon.clip ps qs) = region ps ∩ region qs := by
  rw [hps.convex.region_clip hkeep, hqs.convex.region_eq hqs.twiceArea_pos]

/-- The area that both share is the same in either order, if no crossing is dropped in either. -/
theorem IsProper.sharedArea_comm (hps : IsProper ps) (hqs : IsProper qs)
    (hkeep : KeepsAllCrossings ps (Polygon.edges qs))
    (hkeep' : KeepsAllCrossings qs (Polygon.edges ps)) :
    Polygon.sharedArea ps qs = Polygon.sharedArea qs ps := by
  have harea := hps.volume_clip hqs
  have harea' := hqs.volume_clip hps
  rw [hps.region_clip hqs hkeep] at harea
  rw [hqs.region_clip hps hkeep', Set.inter_comm, harea] at harea'
  exact (ENNReal.ofReal_eq_ofReal_iff (sharedArea_nonneg ps qs) (sharedArea_nonneg qs ps)).1 harea'

/-- **Clips are intersections.** Clipping a convex polygon by another one gives a convex polygon
inside both, whose area is the one they are said to share. If no crossing is dropped, it is all they
have in common; if none is dropped the other way around either, they share the same area in either
order. -/
theorem IsProper.clip_eq_inter (hps : IsProper ps) (hqs : IsProper qs) :
    IsConvex (Polygon.clip ps qs) ∧
    region (Polygon.clip ps qs) ⊆ region ps ∩ region qs ∧
    volume (region (Polygon.clip ps qs)) = ENNReal.ofReal (Polygon.sharedArea ps qs) ∧
    (KeepsAllCrossings ps (Polygon.edges qs) →
      region (Polygon.clip ps qs) = region ps ∩ region qs ∧
      volume (region ps ∩ region qs) = ENNReal.ofReal (Polygon.sharedArea ps qs)) ∧
    (KeepsAllCrossings ps (Polygon.edges qs) → KeepsAllCrossings qs (Polygon.edges ps) →
      Polygon.sharedArea ps qs = Polygon.sharedArea qs ps) := by
  refine ⟨hps.convex.clip qs, ?_, hps.volume_clip hqs, fun hkeep => ?_, hps.sharedArea_comm hqs⟩
  · rw [hqs.convex.region_eq hqs.twiceArea_pos]
    exact region_clip_subset ps qs
  · have heq := hps.region_clip hqs hkeep
    exact ⟨heq, heq ▸ hps.volume_clip hqs⟩

/-- Half of a square. -/
noncomputable def lowerHalf : List (Point ℝ) := [⟨0, 0⟩, ⟨2.0, 0⟩, ⟨0, 2.0⟩]

/-- Half of the same square, along its other diagonal. -/
noncomputable def upperHalf : List (Point ℝ) := [⟨0, 0⟩, ⟨2.0, 2.0⟩, ⟨0, 2.0⟩]

theorem clip_eq_inter_halves :
    IsProper lowerHalf ∧ IsProper upperHalf ∧
    KeepsAllCrossings lowerHalf (Polygon.edges upperHalf) ∧
    KeepsAllCrossings upperHalf (Polygon.edges lowerHalf) ∧
    region (Polygon.clip lowerHalf upperHalf) = region lowerHalf ∩ region upperHalf ∧
    Polygon.sharedArea lowerHalf upperHalf = Polygon.sharedArea upperHalf lowerHalf := by
  have hlower : IsProper lowerHalf := by
    refine ⟨?_, le_rfl, ?_⟩
    · norm_num [IsConvex, lowerHalf, List.triplewise_cons, cross]
    · norm_num [lowerHalf, Polygon.area, Polygon.signedArea, Polygon.edges]
  have hupper : IsProper upperHalf := by
    refine ⟨?_, le_rfl, ?_⟩
    · norm_num [IsConvex, upperHalf, List.triplewise_cons, cross]
    · norm_num [upperHalf, Polygon.area, Polygon.signedArea, Polygon.edges]
  have hkeep : KeepsAllCrossings lowerHalf (Polygon.edges upperHalf) := by
    norm_num [lowerHalf, upperHalf, KeepsAllCrossings, KeepsCrossings, Crosses, Polygon.clipLine,
      Polygon.clipSide, Polygon.edges, Polygon.meet?, cross, Point.mk_add_mk, Point.mk_sub_mk,
      Point.scale]
  have hkeep' : KeepsAllCrossings upperHalf (Polygon.edges lowerHalf) := by
    norm_num [lowerHalf, upperHalf, KeepsAllCrossings, KeepsCrossings, Crosses, Polygon.clipLine,
      Polygon.clipSide, Polygon.edges, Polygon.meet?, cross, Point.mk_add_mk, Point.mk_sub_mk,
      Point.scale]
  have hclip := hlower.clip_eq_inter hupper
  exact ⟨hlower, hupper, hkeep, hkeep', (hclip.2.2.2.1 hkeep).1, hclip.2.2.2.2 hkeep hkeep'⟩

/-! ### Short sides -/

/-- The triangle between the axes. -/
noncomputable def corner : List (Point ℝ) := [⟨0, 0⟩, ⟨1, 0⟩, ⟨0, 1⟩]

/-- The same without a tiny part at the origin. -/
noncomputable def cutCorner : List (Point ℝ) :=
  [⟨1e-17, 0⟩, ⟨1, 0⟩, ⟨0, 1⟩, ⟨0, 1e-17⟩]

/-- The triangle between the axes, and without its corner at the origin. -/
theorem sharedArea_cutCorner :
    IsProper corner ∧ IsProper cutCorner ∧ Polygon.sharedArea corner cutCorner = 0 ∧
      Polygon.sharedArea cutCorner corner = (1 - 1 / 10 ^ 34) / 2 := by
  refine ⟨⟨?_, le_rfl, ?_⟩, ⟨?_, ?_, ?_⟩, ?_, ?_⟩
  · norm_num [corner, IsConvex, cross]
  · norm_num [corner, Polygon.area, Polygon.signedArea, Polygon.edges]
  · norm_num [cutCorner, IsConvex, List.triplewise_cons, cross]
  · norm_num [cutCorner]
  · norm_num [cutCorner, Polygon.area, Polygon.signedArea, Polygon.edges, abs_of_pos]
  · norm_num [corner, cutCorner, Polygon.sharedArea, Polygon.clip, Polygon.clipLine,
      Polygon.clipSide, Polygon.edges, cross, Polygon.meet?, abs_of_pos, abs_of_neg]
    norm_num [Polygon.area, Polygon.signedArea]
  · norm_num [corner, cutCorner, Polygon.sharedArea, Polygon.clip, Polygon.clipLine,
      Polygon.clipSide, Polygon.edges, cross, Polygon.meet?]
    norm_num [Polygon.area, Polygon.signedArea, Polygon.edges, abs_of_pos]

end TrackFusion
