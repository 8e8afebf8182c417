import TrackFusion.Proofs.Geometry.Regions

/-!
# Areas of regions

The area of a convex polygon by the sum over its sides is the area of its region, triangle by
triangle.

* `volume_line`: lines have no area.
* `volume_unitTriangle`, `volume_triangle`: triangles, by the linear map `cornerMap`.
* `IsConvex.volume_region`: convex polygons.
* `IsConvex.twiceArea_mono`: a larger region has a larger sum over its sides.
-/

namespace TrackFusion

open MeasureTheory
open Point (cross)

/-! ### Lines -/

/-- How far a way leaves the direction of a line, as a linear form. -/
noncomputable def lineForm (a b : Point ℝ) : ℝ × ℝ →ₗ[ℝ] ℝ :=
  (b.x - a.x) • LinearMap.snd ℝ ℝ ℝ - (b.y - a.y) • LinearMap.fst ℝ ℝ ℝ

theorem lineForm_apply (a b : Point ℝ) (x : ℝ × ℝ) :
    lineForm a b x = (b.x - a.x) * x.2 - (b.y - a.y) * x.1 := rfl

theorem cross_ofCoords (a b : Point ℝ) (x : ℝ × ℝ) :
    cross a b (Point.ofCoords x) = lineForm a b (x + -a.coords) := by
  simp only [lineForm_apply, cross, Point.ofCoords, Point.coords, Prod.fst_add, Prod.snd_add,
    Prod.fst_neg, Prod.snd_neg]
  simp only [← sub_eq_add_neg]

theorem ker_lineForm_ne_top {a b : Point ℝ} (hne : a ≠ b) : LinearMap.ker (lineForm a b) ≠ ⊤ := by
  intro htop
  rw [LinearMap.ker_eq_top] at htop
  have hx : lineForm a b (0, 1) = 0 := by rw [htop]; rfl
  have hy : lineForm a b (1, 0) = 0 := by rw [htop]; rfl
  rw [lineForm_apply] at hx hy
  exact hne (Point.ext (by linarith) (by linarith))

/-- **A line has no area.** -/
theorem volume_line {a b : Point ℝ} (hne : a ≠ b) :
    volume {x | cross a b (Point.ofCoords x) = 0} = 0 := by
  -- the line is moved into the origin, where it is the kernel of a linear form
  have hline : {x | cross a b (Point.ofCoords x) = 0} =
      Set.preimage (fun x => x + -a.coords) (LinearMap.ker (lineForm a b) : Set (ℝ × ℝ)) := by
    ext x
    rw [Set.mem_ofPred_eq, cross_ofCoords, Set.mem_preimage, SetLike.mem_coe, LinearMap.mem_ker]
  rw [hline, measure_preimage_add_right]
  exact Measure.addHaar_submodule volume _ (ker_lineForm_ne_top hne)

/-! ### Triangles -/

/-- The triangle between the axes. -/
def unitTriangle : Set (ℝ × ℝ) := {x | 0 ≤ x.1 ∧ 0 ≤ x.2 ∧ x.1 + x.2 ≤ 1}

theorem measurableSet_unitTriangle : MeasurableSet unitTriangle := by
  have hclosed : IsClosed unitTriangle :=
    (isClosed_le continuous_const continuous_fst).inter
      ((isClosed_le continuous_const continuous_snd).inter
        (isClosed_le (continuous_fst.add continuous_snd) continuous_const))
  exact hclosed.measurableSet

/-- How long the triangle is at one place. -/
theorem volume_unitTriangle_section (x : ℝ) : volume (Set.preimage (Prod.mk x) unitTriangle) =
    (Set.Icc (0 : ℝ) 1).indicator (fun x => ENNReal.ofReal (1 - x)) x := by
  by_cases hx : x ∈ Set.Icc (0 : ℝ) 1
  · have hset : Set.preimage (Prod.mk x) unitTriangle = Set.Icc 0 (1 - x) := by
      ext y
      simp only [Set.mem_preimage, unitTriangle, Set.mem_ofPred_eq, Set.mem_Icc]
      constructor
      · rintro ⟨-, hy, hxy⟩
        exact ⟨hy, by linarith⟩
      · rintro ⟨hy, hxy⟩
        exact ⟨hx.1, hy, by linarith⟩
    rw [hset, Real.volume_Icc, sub_zero, Set.indicator_of_mem hx]
  · have hset : Set.preimage (Prod.mk x) unitTriangle = ∅ := by
      ext y
      simp only [Set.mem_preimage, unitTriangle, Set.mem_ofPred_eq, Set.mem_empty_iff_false,
        iff_false]
      rintro ⟨hx₀, hy, hxy⟩
      exact hx ⟨hx₀, by linarith⟩
    rw [hset, measure_empty, Set.indicator_of_notMem hx]

theorem volume_unitTriangle : volume unitTriangle = ENNReal.ofReal (1 / 2) := by
  have hintegral : ∫ x in (0 : ℝ)..1, (1 - x) = 1 / 2 := by
    rw [intervalIntegral.integral_sub intervalIntegrable_const
      intervalIntegral.intervalIntegrable_id]
    norm_num
  have hintegrable : IntegrableOn (fun x : ℝ => 1 - x) (Set.Icc 0 1) :=
    (continuous_const.sub continuous_id).integrableOn_Icc
  rw [Measure.volume_eq_prod, Measure.prod_apply measurableSet_unitTriangle]
  simp only [volume_unitTriangle_section]
  rw [lintegral_indicator measurableSet_Icc, ← ofReal_integral_eq_lintegral_ofReal hintegrable]
  · rw [integral_Icc_eq_integral_Ioc, ← intervalIntegral.integral_of_le zero_le_one, hintegral]
  · filter_upwards [ae_restrict_mem measurableSet_Icc] with x hx
    exact sub_nonneg.2 hx.2

/-- A flat convex polygon has no area. -/
theorem IsConvex.volume_region_of_flat {ps : List (Point ℝ)} (h : IsConvex ps)
    (hflat : twiceArea ps = 0) : volume (region ps) = 0 := by
  rcases ps with _ | ⟨o, l⟩
  · simp [region]
  · by_cases hall : ∀ p ∈ l, p = o
    · -- a single point
      have hpoint : region (o :: l) ⊆ {o.coords} := by
        refine region_subset (convex_singleton _) fun p hp => ?_
        rcases List.mem_cons.1 hp with rfl | hp
        · rfl
        · rw [hall p hp]
          rfl
      exact measure_mono_null hpoint (measure_singleton _)
    · -- all of it is on the line of any side that has two ends
      push Not at hall
      obtain ⟨p, hp, hne⟩ := hall
      obtain ⟨k, k', rfl⟩ := List.append_of_mem hp
      obtain ⟨e, he, heq, hside⟩ := exists_step (P := (· = o)) rfl hne k
      have hedge : e ∈ Polygon.edges (o :: (k ++ p :: k')) := by
        rw [edges_cons, List.append_assoc, List.cons_append, steps_append]
        exact List.mem_append_left _ he
      have hline : region (o :: (k ++ p :: k')) ⊆ {x | cross e.1 e.2 (Point.ofCoords x) = 0} := by
        intro x hx
        have hle := le_twiceArea (fun e he => h.region_subset_leftOf he hx) hedge
        exact le_antisymm (hflat ▸ hle) (h.region_subset_leftOf hedge hx)
      exact measure_mono_null hline (volume_line fun h => hside (h ▸ heq))

variable {o a b : Point ℝ} {l ps qs : List (Point ℝ)}

theorem isConvex_triangle : IsConvex [o, a, b] ↔ 0 ≤ cross o a b := by
  simp [IsConvex]

theorem twiceArea_triangle : twiceArea [o, a, b] = cross o a b := by
  rw [twiceArea_cons, twiceArea_pair, add_zero]

/-- The linear map that takes the axes to the sides of a triangle at its first corner. -/
noncomputable def cornerMap (o a b : Point ℝ) : ℝ × ℝ →ₗ[ℝ] ℝ × ℝ :=
  Matrix.toLin (Module.Basis.finTwoProd ℝ) (Module.Basis.finTwoProd ℝ)
    !![a.x - o.x, b.x - o.x; a.y - o.y, b.y - o.y]

theorem cornerMap_apply (o a b : Point ℝ) (x : ℝ × ℝ) : cornerMap o a b x =
    ((a.x - o.x) * x.1 + (b.x - o.x) * x.2, (a.y - o.y) * x.1 + (b.y - o.y) * x.2) :=
  Matrix.toLin_finTwoProd_apply _ _ _ _ x

theorem det_cornerMap (o a b : Point ℝ) : LinearMap.det (cornerMap o a b) = cross o a b := by
  rw [cornerMap, LinearMap.det_toLin, Matrix.det_fin_two_of]
  unfold cross
  ring

/-- The shares of the two other corners in a point are its sides of the triangle. -/
theorem cross_cornerMap (o a b : Point ℝ) (x : ℝ × ℝ) :
    cross o a (Point.ofCoords (cornerMap o a b x + o.coords)) = cross o a b * x.2 ∧
    cross b o (Point.ofCoords (cornerMap o a b x + o.coords)) = cross o a b * x.1 ∧
    cross a b (Point.ofCoords (cornerMap o a b x + o.coords)) =
      cross o a b * (1 - (x.1 + x.2)) := by
  rw [cornerMap_apply]
  simp only [cross, Point.ofCoords, Point.coords, Prod.fst_add, Prod.snd_add]
  refine ⟨?_, ?_, ?_⟩ <;> ring

/-- The triangle between the axes is what is taken to a triangle. -/
theorem preimage_cornerMap (hpos : 0 < cross o a b) :
    Set.preimage (cornerMap o a b) (Set.preimage (fun x => x + o.coords) (region [o, a, b])) =
      unitTriangle := by
  have hconvex : IsConvex [o, a, b] := isConvex_triangle.2 hpos.le
  have harea : 0 < twiceArea [o, a, b] := by rwa [twiceArea_triangle]
  ext x
  obtain ⟨hoa, hbo, hab⟩ := cross_cornerMap o a b x
  rw [Set.mem_preimage, Set.mem_preimage, hconvex.region_eq harea, edges_cons]
  simp only [List.cons_append, List.nil_append, steps_cons, steps_nil, List.forall_mem_cons,
    Set.mem_ofPred_eq, mem_leftOf, hoa, hab, hbo, mul_nonneg_iff_of_pos_left hpos, sub_nonneg,
    unitTriangle]
  tauto

/-- **A triangle** is the image of the one between the axes. -/
theorem volume_triangle (hpos : 0 < cross o a b) :
    volume (region [o, a, b]) = ENNReal.ofReal (cross o a b / 2) := by
  have hdet : LinearMap.det (cornerMap o a b) ≠ 0 := by
    rw [det_cornerMap]
    exact hpos.ne'
  have hvolume := Measure.addHaar_preimage_linearMap volume hdet
    (Set.preimage (fun x => x + o.coords) (region [o, a, b]))
  rw [preimage_cornerMap hpos, volume_unitTriangle, measure_preimage_add_right, det_cornerMap,
    abs_of_pos (inv_pos.2 hpos)] at hvolume
  generalize cross o a b = d at hpos hvolume ⊢
  calc volume (region [o, a, b])
      = ENNReal.ofReal d * (ENNReal.ofReal d⁻¹ * volume (region [o, a, b])) := by
        rw [← mul_assoc, ← ENNReal.ofReal_mul hpos.le, mul_inv_cancel₀ hpos.ne', ENNReal.ofReal_one,
          one_mul]
    _ = ENNReal.ofReal d * ENNReal.ofReal (1 / 2) := by rw [← hvolume]
    _ = ENNReal.ofReal (d / 2) := by rw [← ENNReal.ofReal_mul hpos.le, mul_one_div]

/-! ### Convex polygons -/

theorem measurableSet_region (ps : List (Point ℝ)) : MeasurableSet (region ps) := by
  have hfinite : (Set.image Point.coords {p | p ∈ ps}).Finite := (List.finite_toSet ps).image _
  exact (hfinite.isCompact_convexHull ℝ).isClosed.measurableSet

/-- A polygon is made of the triangle of its second vertex and the rest. -/
theorem IsConvex.region_cons (h : IsConvex (o :: a :: b :: l))
    (hpos : 0 < twiceArea (o :: a :: b :: l)) :
    region (o :: a :: b :: l) = region [o, a, b] ∪ region (o :: b :: l) := by
  have hrest : (o :: b :: l).Sublist (o :: a :: b :: l) :=
    (List.sublist_cons_self a (b :: l)).cons_cons o
  refine Set.Subset.antisymm ?_ (Set.union_subset (region_mono ?_) (region_mono hrest.subset))
  · intro x hx
    rcases h.mem_triangle_or hpos fun e he => h.region_subset_leftOf he hx with hx | ⟨hpos, hx⟩
    · exact .inl hx
    · exact .inr ((h.sublist hrest).mem_region hpos hx)
  · intro p hp
    simp only [List.mem_cons, List.not_mem_nil, or_false] at hp ⊢
    tauto

/-- **The area of a convex polygon** by the sum over its sides is that of its region. -/
theorem IsConvex.volume_region (h : IsConvex ps) :
    volume (region ps) = ENNReal.ofReal (twiceArea ps / 2) := by
  have hflat : ∀ {qs : List (Point ℝ)}, IsConvex qs → twiceArea qs = 0 →
      volume (region qs) = ENNReal.ofReal (twiceArea qs / 2) := by
    intro qs h hzero
    rw [h.volume_region_of_flat hzero, hzero, zero_div, ENNReal.ofReal_zero]
  rcases ps with _ | ⟨o, l⟩
  · exact hflat h rfl
  induction l with
  | nil => exact hflat h (twiceArea_singleton o)
  | cons a l ih =>
    rcases l with _ | ⟨b, l⟩
    · exact hflat h (twiceArea_pair o a)
    rcases h.twiceArea_nonneg.eq_or_lt with hzero | hpos
    · exact hflat h hzero.symm
    have hrest : IsConvex (o :: b :: l) := h.sublist ((List.sublist_cons_self a _).cons_cons o)
    have hcorner : 0 ≤ cross o a b :=
      (List.pairwise_cons.1 (List.triplewise_cons.1 h).1).1 b List.mem_cons_self
    have hconvex : IsConvex [o, a, b] := isConvex_triangle.2 hcorner
    have htriangle : volume (region [o, a, b]) = ENNReal.ofReal (cross o a b / 2) := by
      rcases hcorner.eq_or_lt with hzero | hpos
      · rw [← twiceArea_triangle]
        exact hflat hconvex (twiceArea_triangle.trans hzero.symm)
      · exact volume_triangle hpos
    -- the two parts have at most the new side in common
    have hdisjoint : AEDisjoint volume (region [o, a, b]) (region (o :: b :: l)) := by
      by_cases hne : o = b
      · have hzero : twiceArea [o, a, b] = 0 := by
          rw [twiceArea_triangle, hne, Point.cross_self_outer]
        exact measure_mono_null Set.inter_subset_left (hconvex.volume_region_of_flat hzero)
      · refine measure_mono_null ?_ (volume_line hne)
        rintro x ⟨hx, hx'⟩
        have hbo : 0 ≤ cross b o (Point.ofCoords x) :=
          hconvex.region_subset_leftOf (e := (b, o)) (by simp [edges_cons]) hx
        have hob : 0 ≤ cross o b (Point.ofCoords x) :=
          hrest.region_subset_leftOf (e := (o, b)) (by simp [edges_cons]) hx'
        rw [Point.cross_comm, neg_nonneg] at hbo
        exact le_antisymm hbo hob
    calc volume (region (o :: a :: b :: l))
        = volume (region [o, a, b]) + volume (region (o :: b :: l)) := by
          rw [h.region_cons hpos,
            measure_union₀ (measurableSet_region _).nullMeasurableSet hdisjoint]
      _ = ENNReal.ofReal (cross o a b / 2 + twiceArea (o :: b :: l) / 2) := by
          rw [htriangle, ih hrest, ENNReal.ofReal_add (div_nonneg hcorner zero_le_two)
            (div_nonneg hrest.twiceArea_nonneg zero_le_two)]
      _ = ENNReal.ofReal (twiceArea (o :: a :: b :: l) / 2) := by
          rw [twiceArea_cons o a b l, add_div]

/-- **A convex polygon inside another one** has no larger area. -/
theorem IsConvex.twiceArea_mono (hps : IsConvex ps) (hqs : IsConvex qs)
    (h : region ps ⊆ region qs) : twiceArea ps ≤ twiceArea qs := by
  have hle := measure_mono (μ := volume) h
  rw [hps.volume_region, hqs.volume_region, ENNReal.ofReal_le_ofReal_iff
    (div_nonneg hqs.twiceArea_nonneg zero_le_two)] at hle
  linarith

end TrackFusion
