import TrackFusion.Proofs.Angles
import TrackFusion.Proofs.Enclosure
import TrackFusion.Proofs.Geometry.Vertices

/-!
# Rectangles around footprints

The box of a shape is the smallest rectangle around its footprint that has its heading.

* `Pose.place`: where a point of the frame of an object is in the world.
* `Point.dot`, `exists_dot_le`: how far a point lies in some direction; of a region, a vertex lies
  farthest.
* `mem_region_box_iff`: the rectangle that a box covers.
* `area_footprint_box`: its area.
* `Shape.Spans`: points reach as far as a box in four directions, as the outline does
  (`Shape.BoxForm.spans`) and so do the vertices of the footprint (`Shape.Spans.vertices`).
* `Shape.IsSmallestAround`, `Shape.Spans.isSmallestAround`: the box that points span is the smallest
  with its heading around them.
* `Shape.enclosingBox_smallest`: **the box of a shape is the smallest around its footprint.**
-/

namespace TrackFusion

open Point (cross)

/-! ### Places -/

/-- The place in the world of a point in the frame of an object. -/
noncomputable def Pose.place (q : Pose ℝ) (p : Point ℝ) : Point ℝ := p.rotate q.yaw + q.point

theorem footprint_eq (pose : Pose ℝ) (s : Shape ℝ) :
    footprint pose s = Polygon.convexHull (s.outline.map pose.place) := rfl

/-- The vertices of a footprint are places of the outline. -/
theorem exists_place_of_mem_footprint {pose : Pose ℝ} {s : Shape ℝ} {v : Point ℝ}
    (hv : v ∈ footprint pose s) : ∃ p ∈ s.outline, pose.place p = v :=
  List.mem_map.1 (convexHull_subset _ hv)

section place

variable (q : Pose ℝ) (p : Point ℝ)

theorem Pose.place_x : (q.place p).x = p.x * Real.cos q.yaw - p.y * Real.sin q.yaw + q.x := rfl

theorem Pose.place_y : (q.place p).y = p.x * Real.sin q.yaw + p.y * Real.cos q.yaw + q.y := rfl

/-- Every point of the world is in the frame of an object somewhere. -/
theorem Pose.exists_place : ∃ r, q.place r = p := by
  have hcircle := Real.sin_sq_add_cos_sq q.yaw
  refine ⟨(p - q.point).turnBack q.yaw, Point.ext ?_ ?_⟩
  · show ((p.x - q.x) * Real.cos q.yaw + (p.y - q.y) * Real.sin q.yaw) * Real.cos q.yaw -
      (-(p.x - q.x) * Real.sin q.yaw + (p.y - q.y) * Real.cos q.yaw) * Real.sin q.yaw + q.x = p.x
    linear_combination (p.x - q.x) * hcircle
  · show ((p.x - q.x) * Real.cos q.yaw + (p.y - q.y) * Real.sin q.yaw) * Real.sin q.yaw +
      (-(p.x - q.x) * Real.sin q.yaw + (p.y - q.y) * Real.cos q.yaw) * Real.cos q.yaw + q.y = p.y
    linear_combination (p.y - q.y) * hcircle

theorem Pose.place_toward (r : Point ℝ) (t : ℝ) :
    q.place (p.toward r t) = (q.place p).toward (q.place r) t := by
  apply Point.ext
  · simp only [Pose.place_x, Point.toward_x, Point.toward_y]
    ring
  · simp only [Pose.place_y, Point.toward_x, Point.toward_y]
    ring

/-- Turning and moving changes no areas. -/
theorem Pose.cross_place (a b : Point ℝ) :
    cross (q.place a) (q.place b) (q.place p) = cross a b p := by
  have hcircle := Real.sin_sq_add_cos_sq q.yaw
  simp only [cross, Pose.place_x, Pose.place_y]
  linear_combination ((b.x - a.x) * (p.y - a.y) - (b.y - a.y) * (p.x - a.x)) * hcircle

/-- Of two poses with one heading, the one sees all points moved from where the other one does. -/
theorem Pose.exists_place_add {q' : Pose ℝ} (h : q'.yaw = q.yaw) :
    ∃ d : Point ℝ, ∀ p, q'.place p = q.place (p + d) := by
  obtain ⟨d, hd⟩ := q.exists_place q'.point
  refine ⟨d, fun p => Point.ext ?_ ?_⟩
  · have hx : d.x * Real.cos q.yaw - d.y * Real.sin q.yaw + q.x = q'.x := congrArg Point.x hd
    show p.x * Real.cos q'.yaw - p.y * Real.sin q'.yaw + q'.x =
      (p.x + d.x) * Real.cos q.yaw - (p.y + d.y) * Real.sin q.yaw + q.x
    rw [h]
    linarith
  · have hy : d.x * Real.sin q.yaw + d.y * Real.cos q.yaw + q.y = q'.y := congrArg Point.y hd
    show p.x * Real.sin q'.yaw + p.y * Real.cos q'.yaw + q'.y =
      (p.x + d.x) * Real.sin q.yaw + (p.y + d.y) * Real.cos q.yaw + q.y
    rw [h]
    linarith

end place

/-! ### Directions -/

/-- How far a point lies in some direction. -/
def Point.dot (u p : Point ℝ) : ℝ := u.x * p.x + u.y * p.y

/-- That is how far it lies to the left of a line across. -/
theorem lineForm_coords (u p : Point ℝ) : lineForm ⟨0, 0⟩ ⟨u.y, -u.x⟩ p.coords = u.dot p := by
  rw [lineForm_apply, Point.dot, Point.coords]
  ring

theorem dot_rotate_place (u p : Point ℝ) (q : Pose ℝ) :
    (u.rotate q.yaw).dot (q.place p) = u.dot p + (u.rotate q.yaw).dot q.point := by
  have hcircle := Real.sin_sq_add_cos_sq q.yaw
  show (u.x * Real.cos q.yaw - u.y * Real.sin q.yaw) * (q.place p).x +
      (u.x * Real.sin q.yaw + u.y * Real.cos q.yaw) * (q.place p).y =
    u.x * p.x + u.y * p.y + ((u.x * Real.cos q.yaw - u.y * Real.sin q.yaw) * q.x +
      (u.x * Real.sin q.yaw + u.y * Real.cos q.yaw) * q.y)
  rw [Pose.place_x, Pose.place_y]
  linear_combination (u.x * p.x + u.y * p.y) * hcircle

theorem Pose.place_injective (q : Pose ℝ) : Function.Injective q.place := by
  intro p p' h
  have hdot (u : Point ℝ) : u.dot p = u.dot p' := by
    have hboth := dot_rotate_place u p q
    rw [h, dot_rotate_place] at hboth
    exact (add_right_cancel hboth).symm
  have hx := hdot ⟨1, 0⟩
  have hy := hdot ⟨0, 1⟩
  simp only [Point.dot, one_mul, zero_mul, add_zero, zero_add] at hx hy
  exact Point.ext hx hy

/-- **Of a region, a vertex lies farthest** in any direction. -/
theorem exists_dot_le {ps : List (Point ℝ)} {p : Point ℝ} (u : Point ℝ)
    (hp : p.coords ∈ region ps) : ∃ v ∈ ps, u.dot p ≤ u.dot v := by
  obtain ⟨_, ⟨v, hv, rfl⟩, hle⟩ :=
    ((lineForm ⟨0, 0⟩ ⟨u.y, -u.x⟩).convexOn convex_univ).exists_ge_of_mem_convexHull
      (Set.subset_univ _) hp
  rw [lineForm_coords, lineForm_coords] at hle
  exact ⟨v, hv, hle⟩

theorem exists_dot_le_place {ps l : List (Point ℝ)} {q : Pose ℝ} {p : Point ℝ} (u : Point ℝ)
    (hl : l ⊆ ps.map q.place) (hp : (q.place p).coords ∈ region l) :
    ∃ v ∈ ps, q.place v ∈ l ∧ u.dot p ≤ u.dot v := by
  obtain ⟨w, hw, hle⟩ := exists_dot_le (u.rotate q.yaw) hp
  obtain ⟨v, hv, hplace⟩ := List.mem_map.1 (hl hw)
  rw [← hplace, dot_rotate_place, dot_rotate_place, add_le_add_iff_right] at hle
  exact ⟨v, hv, hplace ▸ hw, hle⟩

/-- As far as an outline reaches, there is a vertex of the footprint. -/
theorem exists_vertex_dot_le {s : Shape ℝ} {p : Point ℝ} (u : Point ℝ) (pose : Pose ℝ)
    (hp : p ∈ s.outline) :
    ∃ v, pose.place v ∈ footprint pose s ∧ u.dot p ≤ u.dot v := by
  have hregion : (pose.place p).coords ∈ region (footprint pose s) := by
    rw [footprint_eq, region_convexHull]
    exact coords_mem_region (List.mem_map_of_mem hp)
  obtain ⟨v, -, hv, hle⟩ := exists_dot_le_place u (convexHull_subset _) hregion
  exact ⟨v, hv, hle⟩

/-! ### Rectangles -/

/-- A number between two opposite ones is a share of the way from the one to the other. -/
theorem exists_share {a u : ℝ} (h : |u| ≤ |a|) : ∃ t, 0 ≤ t ∧ t ≤ 1 ∧ u = a + (-a - a) * t := by
  rcases eq_or_ne a 0 with rfl | ha
  · rw [abs_zero, abs_nonpos_iff] at h
    exact ⟨0, le_rfl, zero_le_one, by rw [h]; ring⟩
  · have hratio : |u / a| ≤ 1 := by
      rw [abs_div]
      exact div_le_one_of_le₀ h (abs_nonneg a)
    obtain ⟨hlow, hhigh⟩ := abs_le.1 hratio
    refine ⟨(1 - u / a) / 2, by linarith, by linarith, ?_⟩
    field_simp
    ring

theorem outline_box (c : Box ℝ) : (Shape.box c).outline =
    [⟨c.length / 2, c.width / 2⟩, ⟨-(c.length / 2), c.width / 2⟩,
      ⟨-(c.length / 2), -(c.width / 2)⟩, ⟨c.length / 2, -(c.width / 2)⟩] := by
  have hhalf (x : ℝ) : x * 0.5 = x / 2 := by
    norm_num
    ring
  rw [← hhalf, ← hhalf]
  rfl

theorem abs_of_mem_outline_box {c : Box ℝ} {v : Point ℝ} (hv : v ∈ (Shape.box c).outline) :
    |v.x| = |c.length| / 2 ∧ |v.y| = |c.width| / 2 := by
  rw [outline_box] at hv
  simp only [List.mem_cons, List.not_mem_nil, or_false] at hv
  rcases hv with rfl | rfl | rfl | rfl <;> simp [abs_div]

theorem region_footprint (q : Pose ℝ) (s : Shape ℝ) :
    region (footprint q s) = region (s.outline.map q.place) := region_convexHull _

theorem place_toward_mem_segment (q : Pose ℝ) (a b : Point ℝ) {t : ℝ} (h₀ : 0 ≤ t) (h₁ : t ≤ 1) :
    (q.place (a.toward b t)).coords ∈ segment ℝ (q.place a).coords (q.place b).coords := by
  rw [Pose.place_toward]
  exact toward_mem_region (convex_segment _ _) (left_mem_segment ℝ _ _) (right_mem_segment ℝ _ _)
    h₀ h₁

/-- A point that is between two others ahead of it and behind it. -/
theorem place_mem_segment_along (q : Pose ℝ) {a x : ℝ} (y : ℝ) (h : |x| ≤ |a|) :
    (q.place ⟨x, y⟩).coords ∈ segment ℝ (q.place ⟨a, y⟩).coords (q.place ⟨-a, y⟩).coords := by
  obtain ⟨t, h₀, h₁, ht⟩ := exists_share h
  have hway : (⟨x, y⟩ : Point ℝ) = (⟨a, y⟩ : Point ℝ).toward ⟨-a, y⟩ t := by
    apply Point.ext
    · rw [Point.toward_x, ← ht]
    · rw [Point.toward_y, sub_self, zero_mul, add_zero]
  rw [hway]
  exact place_toward_mem_segment q _ _ h₀ h₁

/-- A point that is between two others to the left and to the right of it. -/
theorem place_mem_segment_across (q : Pose ℝ) {a y : ℝ} (x : ℝ) (h : |y| ≤ |a|) :
    (q.place ⟨x, y⟩).coords ∈ segment ℝ (q.place ⟨x, a⟩).coords (q.place ⟨x, -a⟩).coords := by
  obtain ⟨t, h₀, h₁, ht⟩ := exists_share h
  have hway : (⟨x, y⟩ : Point ℝ) = (⟨x, a⟩ : Point ℝ).toward ⟨x, -a⟩ t := by
    apply Point.ext
    · rw [Point.toward_x, sub_self, zero_mul, add_zero]
    · rw [Point.toward_y, ← ht]
  rw [hway]
  exact place_toward_mem_segment q _ _ h₀ h₁

/-- The sides of a rectangle, counter-clockwise from the left one. -/
theorem edges_outline_box (q : Pose ℝ) (c : Box ℝ) :
    Polygon.edges ((Shape.box c).outline.map q.place) =
      [(q.place ⟨c.length / 2, c.width / 2⟩, q.place ⟨-(c.length / 2), c.width / 2⟩),
        (q.place ⟨-(c.length / 2), c.width / 2⟩, q.place ⟨-(c.length / 2), -(c.width / 2)⟩),
        (q.place ⟨-(c.length / 2), -(c.width / 2)⟩, q.place ⟨c.length / 2, -(c.width / 2)⟩),
        (q.place ⟨c.length / 2, -(c.width / 2)⟩, q.place ⟨c.length / 2, c.width / 2⟩)] := by
  rw [outline_box]
  rfl

/-- **The rectangle that a box covers**: the points at most half its length ahead or behind, and
half its width to the left or right. -/
theorem mem_region_box_iff {q : Pose ℝ} {c : Box ℝ} {p : Point ℝ} :
    (q.place p).coords ∈ region (footprint q (.box c)) ↔
      |p.x| ≤ |c.length| / 2 ∧ |p.y| ≤ |c.width| / 2 := by
  rw [region_footprint]
  constructor
  · intro hp
    -- in each of the four directions, a corner lies farther
    have hreach (u : Point ℝ) : ∃ v ∈ (Shape.box c).outline, u.dot p ≤ u.dot v := by
      obtain ⟨v, hv, -, hle⟩ := exists_dot_le_place u (List.Subset.refl _) hp
      exact ⟨v, hv, hle⟩
    obtain ⟨f, hf, hfront⟩ := hreach ⟨1, 0⟩
    obtain ⟨b, hb, hback⟩ := hreach ⟨-1, 0⟩
    obtain ⟨l, hl, hleft⟩ := hreach ⟨0, 1⟩
    obtain ⟨r, hr, hright⟩ := hreach ⟨0, -1⟩
    simp only [Point.dot, one_mul, zero_mul, neg_mul, add_zero, zero_add] at hfront hback hleft hright
    have hfx := (abs_of_mem_outline_box hf).1 ▸ le_abs_self f.x
    have hbx := (abs_of_mem_outline_box hb).1 ▸ neg_le_abs b.x
    have hly := (abs_of_mem_outline_box hl).2 ▸ le_abs_self l.y
    have hry := (abs_of_mem_outline_box hr).2 ▸ neg_le_abs r.y
    exact ⟨abs_le.2 ⟨by linarith, by linarith⟩, abs_le.2 ⟨by linarith, by linarith⟩⟩
  · rintro ⟨hx, hy⟩
    rw [← abs_two, ← abs_div] at hx hy
    have hregion := convex_region ((Shape.box c).outline.map q.place)
    have hcorner {v : Point ℝ} (hv : v ∈ (Shape.box c).outline) :
        (q.place v).coords ∈ region ((Shape.box c).outline.map q.place) :=
      coords_mem_region (List.mem_map_of_mem hv)
    -- first along the left and the right side, then across
    have hside (y : ℝ) (hfront : ⟨c.length / 2, y⟩ ∈ (Shape.box c).outline)
        (hback : ⟨-(c.length / 2), y⟩ ∈ (Shape.box c).outline) :
        (q.place ⟨p.x, y⟩).coords ∈ region ((Shape.box c).outline.map q.place) := by
      have hsegment := hregion.segment_subset (hcorner hfront) (hcorner hback)
      exact hsegment (place_mem_segment_along q y hx)
    have hleft := hside (c.width / 2) (by simp [outline_box]) (by simp [outline_box])
    have hright := hside (-(c.width / 2)) (by simp [outline_box]) (by simp [outline_box])
    exact hregion.segment_subset hleft hright (place_mem_segment_across q p.x hy)

theorem isConvex_map_place {ps : List (Point ℝ)} {q : Pose ℝ} :
    IsConvex (ps.map q.place) ↔ IsConvex ps := by
  simp only [IsConvex, List.triplewise_map, Pose.cross_place]

theorem isConvex_outline_box {c : Box ℝ} (hl : 0 ≤ c.length) (hw : 0 ≤ c.width) :
    IsConvex (Shape.box c).outline := by
  have harea := mul_nonneg hl hw
  rw [outline_box, IsConvex]
  simp only [List.triplewise_cons, List.pairwise_cons, List.forall_mem_cons, cross,
    List.not_mem_nil, false_imp_iff, implies_true, List.Pairwise.nil, List.Triplewise.nil, and_true]
  refine ⟨⟨⟨?_, ?_⟩, ?_⟩, ?_⟩ <;> linarith

/-- **The area of a rectangle.** -/
theorem area_footprint_box {c : Box ℝ} (hl : 0 ≤ c.length) (hw : 0 ≤ c.width) (q : Pose ℝ) :
    Polygon.area (footprint q (.box c)) = c.length * c.width := by
  have hcorners := isConvex_map_place (q := q).2 (isConvex_outline_box hl hw)
  have hhull := (isStrictlyConvex_footprint q (.box c)).isConvex
  have hsame := region_footprint q (.box c)
  have harea : twiceArea (footprint q (.box c)) = twiceArea ((Shape.box c).outline.map q.place) :=
    le_antisymm (hhull.twiceArea_mono hcorners hsame.subset)
      (hcorners.twiceArea_mono hhull hsame.superset)
  rw [area_eq_of_isConvex hhull, harea, outline_box]
  simp only [List.map_cons, List.map_nil, twiceArea_cons, twiceArea_pair, Pose.cross_place]
  unfold cross
  ring

/-! ### Boxes of shapes -/

namespace Shape

/-- Shapes whose box is that of their footprint: they have no negative side or diameter, and an
outline of three points at least. -/
def Sound : Shape ℝ → Prop
  | box b => 0 ≤ b.length ∧ 0 ≤ b.width
  | cylinder diameter _ => 0 ≤ diameter
  | polygon outline _ => 3 ≤ outline.length

/-- Seen from a centre, some points are within a box and reach as far as the box in all four
directions. -/
structure Spans (ps : Set (Point ℝ)) (c : Point ℝ) (b : Box ℝ) : Prop where
  within : ∀ p ∈ ps, |p.x - c.x| ≤ b.length / 2 ∧ |p.y - c.y| ≤ b.width / 2
  front : ∃ p ∈ ps, p.x - c.x = b.length / 2
  back : ∃ p ∈ ps, p.x - c.x = -(b.length / 2)
  left : ∃ p ∈ ps, p.y - c.y = b.width / 2
  right : ∃ p ∈ ps, p.y - c.y = -(b.width / 2)

theorem Spans.nonneg {ps : Set (Point ℝ)} {c : Point ℝ} {b : Box ℝ} (h : Spans ps c b) :
    0 ≤ b.length ∧ 0 ≤ b.width := by
  obtain ⟨p, hp, -⟩ := h.front
  obtain ⟨hx, hy⟩ := h.within p hp
  have hx₀ := (abs_nonneg _).trans hx
  have hy₀ := (abs_nonneg _).trans hy
  constructor <;> linarith

theorem spans_box {b : Box ℝ} (hl : 0 ≤ b.length) (hw : 0 ≤ b.width) :
    Spans {p | p ∈ (box b).outline} ⟨0, 0⟩ b where
  within p hp := by
    obtain ⟨hx, hy⟩ := abs_of_mem_outline_box hp
    rw [sub_zero, sub_zero, hx, hy, abs_of_nonneg hl, abs_of_nonneg hw]
    exact ⟨le_rfl, le_rfl⟩
  front := ⟨⟨b.length / 2, b.width / 2⟩, by simp [outline_box], sub_zero _⟩
  back := ⟨⟨-(b.length / 2), b.width / 2⟩, by simp [outline_box], sub_zero _⟩
  left := ⟨⟨b.length / 2, b.width / 2⟩, by simp [outline_box], sub_zero _⟩
  right := ⟨⟨b.length / 2, -(b.width / 2)⟩, by simp [outline_box], sub_zero _⟩

/-- The vertices that stand for a circle. -/
theorem mem_outline_cylinder {diameter height : ℝ} {p : Point ℝ} :
    p ∈ (cylinder diameter height).outline ↔ ∃ i : ℕ, i < 16 ∧
      (⟨diameter / 2 * Real.cos (i / 8 * Real.pi), diameter / 2 * Real.sin (i / 8 * Real.pi)⟩ :
        Point ℝ) = p := by
  have htwo : (2.0 : ℝ) = 2 := by norm_num
  have hhalf : diameter * 0.5 = diameter / 2 := by
    norm_num
    ring
  have hangle (i : ℕ) : (2.0 * Scalar.pi * (i : ℝ) / (circleVertices : ℝ) : ℝ) =
      i / 8 * Real.pi := by
    show 2.0 * Real.pi * (i : ℝ) / ((16 : ℕ) : ℝ) = i / 8 * Real.pi
    rw [htwo]
    push_cast
    ring
  simp only [outline, circle, hhalf, hangle, List.mem_map, List.mem_range]
  rfl

theorem spans_cylinder {diameter : ℝ} (h : 0 ≤ diameter) (height : ℝ) :
    Spans {p | p ∈ (cylinder diameter height).outline} ⟨0, 0⟩ ⟨diameter, diameter, height⟩ where
  within p hp := by
    obtain ⟨i, -, rfl⟩ := mem_outline_cylinder.1 hp
    have hr : 0 ≤ diameter / 2 := div_nonneg h zero_le_two
    rw [sub_zero, sub_zero, abs_mul, abs_mul, abs_of_nonneg hr]
    exact ⟨mul_le_of_le_one_right hr (Real.abs_cos_le_one _),
      mul_le_of_le_one_right hr (Real.abs_sin_le_one _)⟩
  -- after each quarter of the vertices there is one straight ahead, to the left and so on
  front := ⟨_, mem_outline_cylinder.2 ⟨0, by decide, rfl⟩, by simp⟩
  left := ⟨_, mem_outline_cylinder.2 ⟨4, by decide, rfl⟩, by
    have hquarter : ((4 : ℕ) : ℝ) / 8 * Real.pi = Real.pi / 2 := by
      push_cast
      ring
    rw [hquarter, Real.sin_pi_div_two, mul_one, sub_zero]⟩
  back := ⟨_, mem_outline_cylinder.2 ⟨8, by decide, rfl⟩, by
    have hhalf : ((8 : ℕ) : ℝ) / 8 * Real.pi = Real.pi := by
      push_cast
      ring
    rw [hhalf, Real.cos_pi, mul_neg_one, sub_zero]⟩
  right := ⟨_, mem_outline_cylinder.2 ⟨12, by decide, rfl⟩, by
    have hthree : ((12 : ℕ) : ℝ) / 8 * Real.pi = Real.pi / 2 + Real.pi := by
      push_cast
      ring
    rw [hthree, Real.sin_add_pi, Real.sin_pi_div_two, mul_neg_one, sub_zero]⟩

/-- Numbers run from half their extent below its middle to half of it above. -/
theorem mem_extent_iff {low high x : ℝ} :
    |x - (low + high) / 2| ≤ (high - low) / 2 ↔ low ≤ x ∧ x ≤ high := by
  rw [abs_le]
  constructor <;> rintro ⟨hlow, hhigh⟩ <;> constructor <;> linarith

/-- **The outline of a shape spans its box.** -/
theorem BoxForm.spans {s : Shape ℝ} {c : Point ℝ} {b : Box ℝ} (h : s.BoxForm c b) (hs : s.Sound) :
    Spans {p | p ∈ s.outline} c b := by
  cases h with
  | box b => exact spans_box hs.1 hs.2
  | cylinder diameter height => exact spans_cylinder hs height
  | few hps => exact absurd hs (not_le.2 hps)
  | @outline ps hps height back front right left hback hfront hright hleft =>
    constructor
    case within =>
      intro p hp
      have hx : p.x ∈ ps.map Point.x := List.mem_map_of_mem hp
      have hy : p.y ∈ ps.map Point.y := List.mem_map_of_mem hp
      exact ⟨mem_extent_iff.2 ⟨hback.2 hx, hfront.2 hx⟩, mem_extent_iff.2 ⟨hright.2 hy, hleft.2 hy⟩⟩
    case front =>
      obtain ⟨p, hp, rfl⟩ := List.mem_map.1 hfront.1
      exact ⟨p, hp, by ring⟩
    case back =>
      obtain ⟨p, hp, rfl⟩ := List.mem_map.1 hback.1
      exact ⟨p, hp, by ring⟩
    case left =>
      obtain ⟨p, hp, rfl⟩ := List.mem_map.1 hleft.1
      exact ⟨p, hp, by ring⟩
    case right =>
      obtain ⟨p, hp, rfl⟩ := List.mem_map.1 hright.1
      exact ⟨p, hp, by ring⟩

/-- Points among which one lies farther than any, whatever the direction, reach as far. -/
theorem Spans.of_dot_le {ps qs : Set (Point ℝ)} {c : Point ℝ} {b : Box ℝ} (h : Spans ps c b)
    (hsub : qs ⊆ ps) (hfar : ∀ u, ∀ p ∈ ps, ∃ v ∈ qs, Point.dot u p ≤ Point.dot u v) :
    Spans qs c b where
  within p hp := h.within p (hsub hp)
  front := by
    obtain ⟨p, hp, hpx⟩ := h.front
    obtain ⟨v, hv, hle⟩ := hfar ⟨1, 0⟩ p hp
    have hle' := (abs_le.1 (h.within v (hsub hv)).1).2
    simp only [Point.dot, one_mul, zero_mul, add_zero] at hle
    exact ⟨v, hv, by linarith⟩
  back := by
    obtain ⟨p, hp, hpx⟩ := h.back
    obtain ⟨v, hv, hle⟩ := hfar ⟨-1, 0⟩ p hp
    have hle' := (abs_le.1 (h.within v (hsub hv)).1).1
    simp only [Point.dot, neg_mul, one_mul, zero_mul, add_zero] at hle
    exact ⟨v, hv, by linarith⟩
  left := by
    obtain ⟨p, hp, hpy⟩ := h.left
    obtain ⟨v, hv, hle⟩ := hfar ⟨0, 1⟩ p hp
    have hle' := (abs_le.1 (h.within v (hsub hv)).2).2
    simp only [Point.dot, one_mul, zero_mul, zero_add] at hle
    exact ⟨v, hv, by linarith⟩
  right := by
    obtain ⟨p, hp, hpy⟩ := h.right
    obtain ⟨v, hv, hle⟩ := hfar ⟨0, -1⟩ p hp
    have hle' := (abs_le.1 (h.within v (hsub hv)).2).1
    simp only [Point.dot, neg_mul, one_mul, zero_mul, zero_add] at hle
    exact ⟨v, hv, by linarith⟩

/-- The vertices of a footprint reach as far as the outline that it is the hull of. -/
theorem Spans.vertices {s : Shape ℝ} {c : Point ℝ} {b : Box ℝ}
    (h : Spans {p | p ∈ s.outline} c b) (pose : Pose ℝ) :
    Spans {p | pose.place p ∈ footprint pose s} c b := by
  refine h.of_dot_le (fun p hp => ?_) fun u p hp => ?_
  · obtain ⟨p', hp', hplace⟩ := exists_place_of_mem_footprint hp
    exact pose.place_injective hplace ▸ hp'
  · exact exists_vertex_dot_le u pose hp

/-- **The smallest rectangle** around some vertices with its heading: it is around them, each of its
sides has one of them on it, and all rectangles around them with its heading cover it and are as
long and as wide. -/
structure IsSmallestAround (vs : List (Point ℝ)) (q : Pose ℝ) (b : Box ℝ) : Prop where
  around : ∀ v ∈ vs, v.coords ∈ region (footprint q (box b))
  touched : ∀ e ∈ Polygon.edges ((box b).outline.map q.place),
    ∃ v ∈ vs, v.coords ∈ segment ℝ e.1.coords e.2.coords
  covered : ∀ (q' : Pose ℝ) (b' : Box ℝ), q'.yaw = q.yaw →
    (∀ v ∈ vs, v.coords ∈ region (footprint q' (box b'))) →
    region (footprint q (box b)) ⊆ region (footprint q' (box b')) ∧
      b.length ≤ |b'.length| ∧ b.width ≤ |b'.width|

/-- The pose of a box sees its points from its centre. -/
theorem place_shift (pose : Pose ℝ) (c p : Point ℝ) :
    (pose.shift (c.rotate pose.yaw)).place (p - c) = pose.place p := by
  apply Point.ext
  · show (p.x - c.x) * Real.cos pose.yaw - (p.y - c.y) * Real.sin pose.yaw +
      (pose.x + (c.x * Real.cos pose.yaw - c.y * Real.sin pose.yaw)) = (pose.place p).x
    rw [Pose.place_x]
    ring
  · show (p.x - c.x) * Real.sin pose.yaw + (p.y - c.y) * Real.cos pose.yaw +
      (pose.y + (c.x * Real.sin pose.yaw + c.y * Real.cos pose.yaw)) = (pose.place p).y
    rw [Pose.place_y]
    ring

section Spans

variable {vs : List (Point ℝ)} {pose : Pose ℝ} {c : Point ℝ} {b : Box ℝ}

theorem Spans.abs_sub_le (h : Spans {p | pose.place p ∈ vs} c b) {p : Point ℝ}
    (hp : pose.place p ∈ vs) : |p.x - c.x| ≤ |b.length / 2| ∧ |p.y - c.y| ≤ |b.width / 2| := by
  obtain ⟨hx, hy⟩ := h.within p hp
  exact ⟨hx.trans (le_abs_self _), hy.trans (le_abs_self _)⟩

theorem Spans.around (h : Spans {p | pose.place p ∈ vs} c b) {v : Point ℝ} (hv : v ∈ vs) :
    v.coords ∈ region (footprint (pose.shift (c.rotate pose.yaw)) (box b)) := by
  obtain ⟨p, rfl⟩ := pose.exists_place v
  rw [← place_shift pose c, mem_region_box_iff, ← abs_two, ← abs_div, ← abs_div]
  exact h.abs_sub_le hv

/-- A vertex that reaches as far as the box lies on a side of it. -/
theorem Spans.touched (h : Spans {p | pose.place p ∈ vs} c b) :
    ∀ e ∈ Polygon.edges ((box b).outline.map (pose.shift (c.rotate pose.yaw)).place),
      ∃ v ∈ vs, v.coords ∈ segment ℝ e.1.coords e.2.coords := by
  have hplace (p : Point ℝ) :
      pose.place p = (pose.shift (c.rotate pose.yaw)).place ⟨p.x - c.x, p.y - c.y⟩ :=
    (place_shift pose c p).symm
  rw [edges_outline_box]
  simp only [List.forall_mem_cons, List.not_mem_nil, false_imp_iff, implies_true, and_true]
  refine ⟨?left, ?back, ?right, ?front⟩
  case left =>
    obtain ⟨p, hp, hpy⟩ := h.left
    refine ⟨_, hp, ?_⟩
    rw [hplace, hpy]
    exact place_mem_segment_along _ _ (h.abs_sub_le hp).1
  case back =>
    obtain ⟨p, hp, hpx⟩ := h.back
    refine ⟨_, hp, ?_⟩
    rw [hplace, hpx]
    exact place_mem_segment_across _ _ (h.abs_sub_le hp).2
  case right =>
    obtain ⟨p, hp, hpy⟩ := h.right
    refine ⟨_, hp, ?_⟩
    rw [hplace, hpy, segment_symm]
    exact place_mem_segment_along _ _ (h.abs_sub_le hp).1
  case front =>
    obtain ⟨p, hp, hpx⟩ := h.front
    refine ⟨_, hp, ?_⟩
    rw [hplace, hpx, segment_symm]
    exact place_mem_segment_across _ _ (h.abs_sub_le hp).2

/-- A rectangle around all vertices is around those that reach as far as the box. -/
theorem Spans.covered (h : Spans {p | pose.place p ∈ vs} c b) {q : Pose ℝ} {b' : Box ℝ}
    (hyaw : q.yaw = pose.yaw)
    (hall : ∀ v ∈ vs, v.coords ∈ region (footprint q (box b'))) :
    region (footprint (pose.shift (c.rotate pose.yaw)) (box b)) ⊆
        region (footprint q (box b')) ∧
      b.length ≤ |b'.length| ∧ b.width ≤ |b'.width| := by
  have hyaw' : (pose.shift (c.rotate pose.yaw)).yaw = q.yaw := hyaw.symm
  obtain ⟨d, hd⟩ := q.exists_place_add hyaw'
  have hwithin {p : Point ℝ} (hp : pose.place p ∈ vs) :
      |p.x - c.x + d.x| ≤ |b'.length| / 2 ∧ |p.y - c.y + d.y| ≤ |b'.width| / 2 := by
    have hmem := hall _ hp
    rwa [← place_shift pose c, hd, mem_region_box_iff] at hmem
  obtain ⟨f, hf, hfx⟩ := h.front
  obtain ⟨k, hk, hkx⟩ := h.back
  obtain ⟨l, hl, hly⟩ := h.left
  obtain ⟨r, hr, hry⟩ := h.right
  have hfront := (abs_le.1 (hwithin hf).1).2
  have hback := (abs_le.1 (hwithin hk).1).1
  have hleft := (abs_le.1 (hwithin hl).2).2
  have hright := (abs_le.1 (hwithin hr).2).1
  refine ⟨region_subset (convex_region _) fun v hv => ?_, by linarith, by linarith⟩
  obtain ⟨p, hp, rfl⟩ := exists_place_of_mem_footprint hv
  obtain ⟨hx, hy⟩ := abs_of_mem_outline_box hp
  rw [abs_of_nonneg h.nonneg.1] at hx
  rw [abs_of_nonneg h.nonneg.2] at hy
  obtain ⟨hx₁, hx₂⟩ := abs_le.1 hx.le
  obtain ⟨hy₁, hy₂⟩ := abs_le.1 hy.le
  rw [hd, mem_region_box_iff]
  constructor
  · show |p.x + d.x| ≤ _
    exact abs_le.2 ⟨by linarith, by linarith⟩
  · show |p.y + d.y| ≤ _
    exact abs_le.2 ⟨by linarith, by linarith⟩

/-- **The box that vertices span is the smallest around them.** -/
theorem Spans.isSmallestAround (h : Spans {p | pose.place p ∈ vs} c b) :
    IsSmallestAround vs (pose.shift (c.rotate pose.yaw)) b where
  around _ hv := h.around hv
  touched := h.touched
  covered _ _ hyaw hall := h.covered hyaw hall

end Spans

/-- **The box around a shape is the smallest**: it keeps the heading, its rectangle is the smallest
one around the vertices of the footprint, and its area is at least that of the footprint. -/
theorem enclosingBox_smallest {s : Shape ℝ} (hs : s.Sound) (pose : Pose ℝ) :
    (s.enclosingBox pose).1.yaw = pose.yaw ∧
      IsSmallestAround (footprint pose s) (s.enclosingBox pose).1
        (s.enclosingBox pose).2 ∧
      Polygon.area (footprint pose s) ≤ (box (s.enclosingBox pose).2).area := by
  obtain ⟨c, b, hform, heq⟩ := s.enclosingBox_spec pose
  have hspans := (hform.spans hs).vertices pose
  have hsmallest := hspans.isSmallestAround
  rw [heq]
  refine ⟨rfl, hsmallest, ?_⟩
  have hhull := (isStrictlyConvex_footprint pose s).isConvex
  have hbox := (isStrictlyConvex_footprint (pose.shift (c.rotate pose.yaw)) (box b)).isConvex
  have hregion := region_subset (convex_region _) hsmallest.around
  calc Polygon.area (footprint pose s)
      = twiceArea (footprint pose s) / 2 := area_eq_of_isConvex hhull
    _ ≤ twiceArea (footprint _ (box b)) / 2 := by
      linarith [hhull.twiceArea_mono hbox hregion]
    _ = Polygon.area (footprint _ (box b)) := (area_eq_of_isConvex hbox).symm
    _ = (box b).area := area_footprint_box hspans.nonneg.1 hspans.nonneg.2 _

theorem enclosingBox_smallest_offCentre :
    (polygon [⟨0, 0⟩, ⟨4, 0⟩, ⟨4, 2⟩, ⟨0, 2⟩] 1.5).Sound ∧
      let s : Shape ℝ := polygon [⟨0, 0⟩, ⟨4, 0⟩, ⟨4, 2⟩, ⟨0, 2⟩] 1.5
      let pose : Pose ℝ := { x := 10, y := 0, z := 0, yaw := Real.pi / 2 }
      (s.enclosingBox pose).1.yaw = pose.yaw ∧
        IsSmallestAround (footprint pose s) (s.enclosingBox pose).1
          (s.enclosingBox pose).2 ∧
        Polygon.area (footprint pose s) ≤ (box (s.enclosingBox pose).2).area :=
  ⟨by show 3 ≤ 4; decide, enclosingBox_smallest (by show 3 ≤ 4; decide) _⟩

end Shape

end TrackFusion
