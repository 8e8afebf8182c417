import TrackFusion.Proofs.Geometry.Regions
import TrackFusion.Geometry.Clip

/-!
# Cutting convex polygons

A line cuts a part off a convex polygon. What is left behind is convex, and it never has points
outside the polygon or to the right of the line.

* `crossing`: where a side crosses a line, with `mem_clipLine`.
* `IsConvex.clipLine`, `IsConvex.clip`: cut polygons are convex.
* `region_clipLine_subset`: no points from outside.
-/

namespace TrackFusion

open Point (cross)

/-! ### Sides that a line crosses -/

section crossings

variable {α : Type} [ExactScalar α]

/-- One end of a side is to the left of a line or on it, and the other one is to its right. -/
def Crosses (line side : Point α × Point α) : Prop :=
  ¬(0 ≤ cross line.1 line.2 side.1 ↔ 0 ≤ cross line.1 line.2 side.2)

instance (line side : Point α × Point α) : Decidable (Crosses line side) :=
  inferInstanceAs (Decidable ¬(_ ↔ _))

/-- How far along a side the line crosses it. -/
def share (line side : Point α × Point α) : α :=
  cross line.1 line.2 side.1 / (cross line.1 line.2 side.1 - cross line.1 line.2 side.2)

/-- Where a line crosses a side. -/
def crossing (line side : Point α × Point α) : Point α := side.1.toward side.2 (share line side)

variable {line side : Point α × Point α} {ps : List (Point α)}

theorem Crosses.sub_ne_zero (h : Crosses line side) :
    cross line.1 line.2 side.1 - cross line.1 line.2 side.2 ≠ 0 := by
  intro heq
  exact h (by rw [sub_eq_zero.1 heq])

theorem Crosses.share_mem (h : Crosses line side) : 0 ≤ share line side ∧ share line side ≤ 1 := by
  unfold share
  unfold Crosses at h
  rcases le_or_gt 0 (cross line.1 line.2 side.1) with hp | hp
  · have hq : cross line.1 line.2 side.2 < 0 := not_le.1 fun hq => h ⟨fun _ => hq, fun _ => hp⟩
    have hd : 0 < cross line.1 line.2 side.1 - cross line.1 line.2 side.2 := by linarith
    exact ⟨div_nonneg hp hd.le, (div_le_one hd).2 (by linarith)⟩
  · have hq : 0 ≤ cross line.1 line.2 side.2 := by
      by_contra hq
      exact h ⟨fun h => absurd h hp.not_ge, fun h => absurd h hq⟩
    have hd : cross line.1 line.2 side.1 - cross line.1 line.2 side.2 < 0 := by linarith
    exact ⟨div_nonneg_of_nonpos hp.le hd.le, (div_le_one_of_neg hd).2 (by linarith)⟩

/-- A crossing is on the line. -/
theorem Crosses.cross_crossing (h : Crosses line side) :
    cross line.1 line.2 (crossing line side) = 0 := by
  have hne := h.sub_ne_zero
  rw [crossing, Point.cross_toward, share]
  field_simp
  ring

theorem eq_crossing {p : Point α} (h : Polygon.meet? side.1 side.2 line.1 line.2 = some p) :
    p = crossing line side := by
  rw [Polygon.meet?] at h
  split at h
  · cases h
  · exact (Option.some.inj h).symm

/-- A side leaves its first point behind, or a crossing, or both in this order. -/
theorem clipSide_eq : Polygon.clipSide line.1 line.2 side =
    (if 0 ≤ cross line.1 line.2 side.1 then [side.1] else []) ++
      if Crosses line side then (Polygon.meet? side.1 side.2 line.1 line.2).toList else [] := by
  have hcrosses : (decide (0 ≤ cross line.1 line.2 side.1) !=
      decide (0 ≤ cross line.1 line.2 side.2)) = true ↔ Crosses line side := by
    rw [bne_iff_ne, Ne, decide_eq_decide, Crosses]
  simp only [Polygon.clipSide, decide_eq_true_eq]
  rw [if_congr hcrosses rfl rfl]

/-- **What a line leaves behind**: the vertices to its left, and the crossings that are kept. -/
theorem mem_clipLine {p : Point α} : p ∈ Polygon.clipLine ps line ↔
    p ∈ ps ∧ 0 ≤ cross line.1 line.2 p ∨ ∃ e ∈ Polygon.edges ps, Crosses line e ∧
      Polygon.meet? e.1 e.2 line.1 line.2 = some p := by
  have hfst : (Polygon.edges ps).map Prod.fst = ps := List.map_fst_zip (by cases ps <;> simp)
  have hvertex : p ∈ ps ↔ ∃ e ∈ Polygon.edges ps, e.1 = p := by
    conv_lhs => rw [← hfst]
    exact List.mem_map
  have hside : ∀ e, p ∈ Polygon.clipSide line.1 line.2 e ↔
      e.1 = p ∧ 0 ≤ cross line.1 line.2 p ∨
        Crosses line e ∧ Polygon.meet? e.1 e.2 line.1 line.2 = some p := by
    intro e
    rw [clipSide_eq, List.mem_append]
    refine or_congr ?_ ?_
    · split
      · rw [List.mem_singleton]
        grind
      · grind
    · split
      · rename_i h
        rw [Option.mem_toList]
        exact (and_iff_right h).symm
      · rename_i h
        simp [h]
  rw [Polygon.clipLine, List.mem_flatMap, hvertex]
  simp only [hside]
  grind

theorem mem_of_clipLine {p : Point α} (hp : p ∈ Polygon.clipLine ps line) :
    0 ≤ cross line.1 line.2 p := by
  rcases mem_clipLine.1 hp with ⟨-, hp⟩ | ⟨e, -, he, hp⟩
  · exact hp
  · rw [eq_crossing hp, he.cross_crossing]

/-- What one side leaves behind is some of its first point and a point on it. -/
theorem exists_clipSide_sublist (line side : Point α × Point α) : ∃ t : α, 0 ≤ t ∧ t ≤ 1 ∧
    (Polygon.clipSide line.1 line.2 side).Sublist [side.1, side.1.toward side.2 t] := by
  rw [clipSide_eq]
  have hfirst : (if 0 ≤ cross line.1 line.2 side.1 then [side.1] else []).Sublist [side.1] := by
    split
    · exact List.Sublist.refl _
    · exact List.nil_sublist _
  by_cases h : Crosses line side
  · refine ⟨share line side, h.share_mem.1, h.share_mem.2, hfirst.append ?_⟩
    rw [if_pos h]
    cases hmeet : Polygon.meet? side.1 side.2 line.1 line.2 with
    | none => exact List.nil_sublist _
    | some p => rw [eq_crossing hmeet]; exact List.Sublist.refl _
  · rw [if_neg h]
    exact ⟨0, le_rfl, zero_le_one, hfirst.append (List.nil_sublist _)⟩

/-! ### Cut polygons are convex -/

/-- A point on every side of a way makes no turn to the right. -/
theorem IsConvex.flatMap_steps {t : Point α × Point α → α} (ht : ∀ e, 0 ≤ t e ∧ t e ≤ 1)
    {a : Point α} {l k : List (Point α)} (h : IsConvex (k ++ a :: l)) :
    IsConvex (k ++ (steps a l).flatMap fun e => [e.1, e.1.toward e.2 (t e)]) := by
  induction l generalizing a k with
  | nil =>
    rw [steps_nil, List.flatMap_nil, List.append_nil]
    exact h.sublist (List.sublist_append_left k [a])
  | cons b l ih =>
    have hinsert := h.insert (ht (a, b)).1 (ht (a, b)).2
    have hrest := ih (a := b) (k := k ++ [a, a.toward b (t (a, b))]) (by simpa using hinsert)
    simpa using hrest

/-- **A cut convex polygon is convex.** -/
theorem IsConvex.clipLine (h : IsConvex ps) (line : Point α × Point α) :
    IsConvex (Polygon.clipLine ps line) := by
  choose t h₀ h₁ hsub using exists_clipSide_sublist line
  rcases ps with _ | ⟨a, l⟩
  · exact h
  · have hall := IsConvex.flatMap_steps (k := []) (fun e => ⟨h₀ e, h₁ e⟩) h.closed
    refine hall.sublist ?_
    rw [Polygon.clipLine, edges_cons]
    exact List.Sublist.flatMap_right _ fun e _ => hsub e

theorem IsConvex.clip (h : IsConvex ps) (qs : List (Point α)) : IsConvex (Polygon.clip ps qs) := by
  rw [Polygon.clip]
  generalize Polygon.edges qs = lines
  induction lines generalizing ps with
  | nil => exact h
  | cons line lines ih => exact ih (h.clipLine line)

end crossings

/-! ### Points that are left -/

variable {ps : List (Point ℝ)} {line : Point ℝ × Point ℝ}

theorem coords_toward (p q : Point ℝ) (t : ℝ) :
    (p.toward q t).coords = (1 - t) • p.coords + t • q.coords := by
  apply Prod.ext
  · change (p.toward q t).x = (1 - t) * p.x + t * q.x
    rw [Point.toward_x]
    ring
  · change (p.toward q t).y = (1 - t) * p.y + t * q.y
    rw [Point.toward_y]
    ring

theorem toward_mem_region {p q : Point ℝ} {t : ℝ} {s : Set (ℝ × ℝ)} (hs : Convex ℝ s)
    (hp : p.coords ∈ s) (hq : q.coords ∈ s) (h₀ : 0 ≤ t) (h₁ : t ≤ 1) :
    (p.toward q t).coords ∈ s := by
  rw [coords_toward]
  exact hs hp hq (sub_nonneg.2 h₁) h₀ (sub_add_cancel 1 t)

/-- **Nothing from outside**: what a line leaves behind lies in the polygon and to its left. -/
theorem region_clipLine_subset :
    region (Polygon.clipLine ps line) ⊆ region ps ∩ leftOf line.1 line.2 := by
  refine Set.subset_inter (region_subset (convex_region ps) ?_) (region_subset_leftOf ?_)
  · intro p hp
    rcases mem_clipLine.1 hp with ⟨hp, -⟩ | ⟨e, he, hcross, hp⟩
    · exact coords_mem_region hp
    · obtain ⟨h₁, h₂⟩ := mem_of_mem_edges he
      obtain ⟨h₀, h₁'⟩ := hcross.share_mem
      rw [eq_crossing hp]
      exact toward_mem_region (convex_region ps) (coords_mem_region h₁) (coords_mem_region h₂) h₀
        h₁'
  · exact fun p hp => mem_of_clipLine hp

end TrackFusion
