import TrackFusion.Proofs.Geometry.Sides

/-!
# Regions of polygons

The region that a polygon bounds is the convex hull of its vertices.

* `leftOf`: the points to the left of a line.
* `region`: the points of a polygon, with `region_subset_leftOf`.
* `mem_triangle`: the points to the left of the three sides of a triangle.
* `IsConvex.mem_triangle_or`: a second vertex that is left out takes the points of its triangle
  away.
* `IsConvex.region_eq`: a convex polygon has the points to the left of all its sides.
-/

namespace TrackFusion

open Point (cross)

/-- A point, as a vector. -/
def Point.coords (p : Point ℝ) : ℝ × ℝ := (p.x, p.y)

/-- A vector, as a point. -/
def Point.ofCoords (x : ℝ × ℝ) : Point ℝ := ⟨x.1, x.2⟩

@[simp] theorem Point.ofCoords_coords (p : Point ℝ) : Point.ofCoords p.coords = p := rfl

/-! ### Half planes -/

/-- The points on the line from `a` to `b` or to the left of it. -/
def leftOf (a b : Point ℝ) : Set (ℝ × ℝ) := {x | 0 ≤ cross a b (Point.ofCoords x)}

@[simp] theorem mem_leftOf {a b : Point ℝ} {x : ℝ × ℝ} :
    x ∈ leftOf a b ↔ 0 ≤ cross a b (Point.ofCoords x) := Iff.rfl

theorem cross_combination (a b : Point ℝ) (x y : ℝ × ℝ) {s t : ℝ} (hst : s + t = 1) :
    cross a b (Point.ofCoords (s • x + t • y)) =
      s * cross a b (Point.ofCoords x) + t * cross a b (Point.ofCoords y) := by
  obtain rfl : t = 1 - s := by linarith
  simp only [cross, Point.ofCoords, Prod.fst_add, Prod.snd_add, Prod.smul_fst, Prod.smul_snd,
    smul_eq_mul]
  ring

theorem convex_leftOf (a b : Point ℝ) : Convex ℝ (leftOf a b) := by
  intro x hx y hy s t hs ht hst
  rw [mem_leftOf, cross_combination a b x y hst]
  exact add_nonneg (mul_nonneg hs hx) (mul_nonneg ht hy)

/-! ### Regions -/

/-- **The region** that a polygon bounds: the least convex set that its vertices are in. -/
def region (ps : List (Point ℝ)) : Set (ℝ × ℝ) :=
  convexHull ℝ (Set.image Point.coords {p | p ∈ ps})

theorem convex_region (ps : List (Point ℝ)) : Convex ℝ (region ps) := convex_convexHull ℝ _

theorem coords_mem_region {ps : List (Point ℝ)} {p : Point ℝ} (hp : p ∈ ps) :
    p.coords ∈ region ps :=
  subset_convexHull ℝ _ ⟨p, hp, rfl⟩

theorem region_subset {ps : List (Point ℝ)} {s : Set (ℝ × ℝ)} (hs : Convex ℝ s)
    (h : ∀ p ∈ ps, p.coords ∈ s) : region ps ⊆ s :=
  convexHull_min (Set.image_subset_iff.2 h) hs

theorem region_mono {ps qs : List (Point ℝ)} (h : ps ⊆ qs) : region ps ⊆ region qs :=
  region_subset (convex_region qs) fun _ hp => coords_mem_region (h hp)

theorem region_subset_leftOf {ps : List (Point ℝ)} {a b : Point ℝ}
    (h : ∀ p ∈ ps, 0 ≤ cross a b p) : region ps ⊆ leftOf a b :=
  region_subset (convex_leftOf a b) h

theorem IsConvex.region_subset_leftOf {ps : List (Point ℝ)} (h : IsConvex ps)
    {e : Point ℝ × Point ℝ} (he : e ∈ Polygon.edges ps) : region ps ⊆ leftOf e.1 e.2 :=
  TrackFusion.region_subset_leftOf fun _ hp => h.left he hp

/-! ### Half planes bound regions -/

/-- **A point to the left of the three sides of a triangle** is the mean of the vertices, each with
the part of the area that is opposite to it as its weight. -/
theorem mem_triangle {o a b : Point ℝ} {x : ℝ × ℝ} (hpos : 0 < cross o a b)
    (hoa : x ∈ leftOf o a) (hab : x ∈ leftOf a b) (hbo : x ∈ leftOf b o) :
    x ∈ region [o, a, b] := by
  have hsplit := Point.cross_split o a b (Point.ofCoords x)
  rw [mem_leftOf] at hoa hab hbo
  set s := cross o a b
  set u := cross a b (Point.ofCoords x)
  set v := cross b o (Point.ofCoords x)
  set w := cross o a (Point.ofCoords x)
  have hx : x = (u / s) • o.coords + (v / s) • a.coords + (w / s) • b.coords := by
    have hs : s ≠ 0 := hpos.ne'
    apply Prod.ext
    · simp only [Point.coords, Prod.fst_add, Prod.smul_fst, smul_eq_mul]
      field_simp
      simp only [s, u, v, w, cross, Point.ofCoords]
      ring
    · simp only [Point.coords, Prod.snd_add, Prod.smul_snd, smul_eq_mul]
      field_simp
      simp only [s, u, v, w, cross, Point.ofCoords]
      ring
  have hone : u / s + v / s + w / s = 1 := by
    rw [← add_div, ← add_div, div_eq_one_iff_eq hpos.ne']
    linarith
  have hsum := (convex_region [o, a, b]).sum_mem (t := Finset.univ) (w := ![u / s, v / s, w / s])
    (z := ![o.coords, a.coords, b.coords]) ?_ ?_ ?_
  · rw [hx]
    rwa [Fin.sum_univ_three] at hsum
  · intro i _
    fin_cases i
    · exact div_nonneg hab hpos.le
    · exact div_nonneg hbo hpos.le
    · exact div_nonneg hoa hpos.le
  · rwa [Fin.sum_univ_three]
  · intro i _
    fin_cases i
    · exact coords_mem_region (by simp)
    · exact coords_mem_region (by simp)
    · exact coords_mem_region (by simp)

/-- Seen from a point to the left of all sides, the area is a sum without negative terms. -/
theorem le_twiceArea {ps : List (Point ℝ)} {x : ℝ × ℝ}
    (hx : ∀ e ∈ Polygon.edges ps, x ∈ leftOf e.1 e.2) {e : Point ℝ × Point ℝ}
    (he : e ∈ Polygon.edges ps) : cross e.1 e.2 (Point.ofCoords x) ≤ twiceArea ps := by
  rw [twiceArea_eq_sum_cross (Point.ofCoords x)]
  have hterm : cross (Point.ofCoords x) e.1 e.2 = cross e.1 e.2 (Point.ofCoords x) :=
    (Point.cross_rotate _ _ _).symm
  rw [← hterm]
  refine List.single_le_sum ?_ _ (List.mem_map_of_mem he)
  intro t ht
  obtain ⟨e', he', rfl⟩ := List.mem_map.1 ht
  rw [← Point.cross_rotate]
  exact hx e' he'

variable {o a b : Point ℝ} {l : List (Point ℝ)}

/-- The sides that are left when the second vertex is left out. -/
theorem mem_edges_of_mem_edges_cons {β : Type} {o a b : β} {l : List β} {e : β × β}
    (he : e ∈ Polygon.edges (o :: b :: l)) : e = (o, b) ∨ e ∈ Polygon.edges (o :: a :: b :: l) := by
  rw [edges_cons] at he ⊢
  simp only [List.cons_append, steps_cons, List.mem_cons] at he ⊢
  tauto

/-- **A second vertex that is left out** takes its triangle away: a point of the polygon is in the
triangle or in the rest, and the part that it is in is not flat. -/
theorem IsConvex.mem_triangle_or (h : IsConvex (o :: a :: b :: l))
    (hpos : 0 < twiceArea (o :: a :: b :: l)) {x : ℝ × ℝ}
    (hx : ∀ e ∈ Polygon.edges (o :: a :: b :: l), x ∈ leftOf e.1 e.2) :
    x ∈ region [o, a, b] ∨ 0 < twiceArea (o :: b :: l) ∧
      ∀ e ∈ Polygon.edges (o :: b :: l), x ∈ leftOf e.1 e.2 := by
  have hcorner : 0 ≤ cross o a b :=
    (List.pairwise_cons.1 (List.triplewise_cons.1 h).1).1 b List.mem_cons_self
  have hsplit := Point.cross_split o a b (Point.ofCoords x)
  have hoa : 0 ≤ cross o a (Point.ofCoords x) := hx (o, a) (by simp [edges_cons])
  have hab : 0 ≤ cross a b (Point.ofCoords x) := hx (a, b) (by simp [edges_cons])
  have hbo := Point.cross_comm o b (Point.ofCoords x)
  have hrest := twiceArea_cons o a b l
  have hleft : 0 ≤ cross o b (Point.ofCoords x) →
      ∀ e ∈ Polygon.edges (o :: b :: l), x ∈ leftOf e.1 e.2 := by
    intro hob e he
    rcases mem_edges_of_mem_edges_cons he with rfl | he
    · exact hob
    · exact hx e he
  by_cases htriangle : 0 < cross o a b ∧ cross o b (Point.ofCoords x) ≤ 0
  · -- on the triangle's side of the new side
    exact .inl (mem_triangle htriangle.1 hoa hab (mem_leftOf.2 (by linarith)))
  · rcases hcorner.eq_or_lt with hflat | hcorner
    · exact .inr ⟨by linarith, hleft (by linarith)⟩
    · have hob : 0 < cross o b (Point.ofCoords x) := not_le.1 fun hle => htriangle ⟨hcorner, hle⟩
      have harea := le_twiceArea (hleft hob.le) (e := (o, b)) (by simp [edges_cons])
      exact .inr ⟨hob.trans_le harea, hleft hob.le⟩

/-- **A point to the left of all sides** of a convex polygon is in its region. -/
theorem IsConvex.mem_region {ps : List (Point ℝ)} (h : IsConvex ps) (hpos : 0 < twiceArea ps)
    {x : ℝ × ℝ} (hx : ∀ e ∈ Polygon.edges ps, x ∈ leftOf e.1 e.2) : x ∈ region ps := by
  rcases ps with _ | ⟨o, l⟩
  · exact absurd rfl hpos.ne'
  -- the second vertex is left out as long as the point is not in its triangle
  induction l with
  | nil => rw [twiceArea_singleton] at hpos; exact absurd hpos (lt_irrefl 0)
  | cons a l ih =>
    rcases l with _ | ⟨b, l⟩
    · rw [twiceArea_pair] at hpos
      exact absurd hpos (lt_irrefl 0)
    · rcases h.mem_triangle_or hpos hx with hx | ⟨hpos, hx⟩
      · refine region_mono ?_ hx
        intro p hp
        simp only [List.mem_cons, List.not_mem_nil, or_false] at hp ⊢
        tauto
      · have hless : (o :: b :: l).Sublist (o :: a :: b :: l) :=
          (List.sublist_cons_self a (b :: l)).cons_cons o
        exact region_mono hless.subset (ih (h.sublist hless) hpos hx)

/-- **A convex polygon** has the points to the left of all its sides. -/
theorem IsConvex.region_eq {ps : List (Point ℝ)} (h : IsConvex ps) (hpos : 0 < twiceArea ps) :
    region ps = {x | ∀ e ∈ Polygon.edges ps, x ∈ leftOf e.1 e.2} :=
  Set.Subset.antisymm (fun _ hx _ he => h.region_subset_leftOf he hx) fun _ hx =>
    h.mem_region hpos hx

end TrackFusion
