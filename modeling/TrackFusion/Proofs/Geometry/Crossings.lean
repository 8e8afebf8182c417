import TrackFusion.Proofs.Geometry.Cuts

/-!
# Crossings

A line that separates some vertices of a convex polygon from others crosses two of its sides. The
part between these two crossings is all of the line that is in the polygon.

* `IsConvex.crossing_mem_region`: between an inner and an outer vertex.
* `zeroBetween_mem`, `mem_of_nonneg`: between a mean of inner vertices and a mean of outer ones.
* `IsConvex.region_clipLine`: nothing is lost if both crossings are kept.
-/

namespace TrackFusion

open Point (cross)

/-! ### Between two vertices -/

/-- Two points are the same if two lines that are not parallel do not tell them apart. -/
theorem eq_of_cross_eq {a b u v p q : Point ℝ} (hne : cross a b u ≠ cross a b v)
    (hab : cross a b p = cross a b q) (huv : cross u v p = cross u v q) : p = q := by
  have hd : cross a b v - cross a b u ≠ 0 := sub_ne_zero.2 hne.symm
  have hx : (p.x - q.x) * (cross a b v - cross a b u) = 0 := by
    unfold cross at hab huv ⊢
    linear_combination (v.x - u.x) * hab - (b.x - a.x) * huv
  have hy : (p.y - q.y) * (cross a b v - cross a b u) = 0 := by
    unfold cross at hab huv ⊢
    linear_combination (v.y - u.y) * hab - (b.y - a.y) * huv
  exact Point.ext (sub_eq_zero.1 ((mul_eq_zero.1 hx).resolve_right hd))
    (sub_eq_zero.1 ((mul_eq_zero.1 hy).resolve_right hd))

/-- A point of two lines is between two points of the one that are on different sides of the
other. -/
theorem mem_of_between {a b u v w p q : Point ℝ} {s : Set (ℝ × ℝ)} (hs : Convex ℝ s)
    (hne : cross a b u ≠ cross a b v) (hw : cross a b w = 0) (hw' : cross u v w = 0)
    (hp : cross a b p = 0) (hp' : cross u v p ≤ 0) (hq : cross a b q = 0)
    (hq' : 0 ≤ cross u v q) (hps : p.coords ∈ s) (hqs : q.coords ∈ s) : w.coords ∈ s := by
  rcases hp'.eq_or_lt with hzero | hneg
  · rwa [eq_of_cross_eq hne (hw.trans hp.symm) (hw'.trans hzero.symm)]
  · have hd : 0 < cross u v q - cross u v p := by linarith
    set t := -cross u v p / (cross u v q - cross u v p) with ht
    have hmeet : w = p.toward q t := by
      apply eq_of_cross_eq hne
      · rw [hw, Point.cross_toward, hp, hq]
        ring
      · rw [hw', Point.cross_toward, ht]
        field_simp
        ring
    rw [hmeet]
    exact toward_mem_region hs hps hqs (div_nonneg (by linarith) hd.le)
      ((div_le_one hd).2 (by linarith))

variable {ps : List (Point ℝ)} {line : Point ℝ × Point ℝ}

/-- No crossing of a line with a side of the polygon is dropped. -/
def KeepsCrossings {α : Type} [ExactScalar α] (ps : List (Point α)) (line : Point α × Point α) :
    Prop :=
  ∀ e ∈ Polygon.edges ps, Crosses line e → (Polygon.meet? e.1 e.2 line.1 line.2).isSome

theorem KeepsCrossings.crossing_mem (hkeep : KeepsCrossings ps line) {e : Point ℝ × Point ℝ}
    (he : e ∈ Polygon.edges ps) (hcross : Crosses line e) :
    crossing line e ∈ Polygon.clipLine ps line := by
  obtain ⟨p, hp⟩ := Option.isSome_iff_exists.1 (hkeep e he hcross)
  exact mem_clipLine.2 (.inr ⟨e, he, hcross, eq_crossing hp ▸ hp⟩)

/-- A diagonal has the one way around a convex polygon to its right, and the other to its left. -/
theorem IsConvex.sides_of_diagonal {u v : Point ℝ} {l l' : List (Point ℝ)}
    (h : IsConvex (u :: (l ++ v :: l'))) :
    (∀ w ∈ u :: (l ++ [v]), cross u v w ≤ 0) ∧ ∀ w ∈ v :: (l' ++ [u]), 0 ≤ cross u v w := by
  obtain ⟨hturns, -⟩ := List.triplewise_cons.1 h
  obtain ⟨-, hv, hlv⟩ := List.pairwise_append.1 hturns
  constructor
  · intro w hw
    simp only [List.mem_cons, List.mem_append, List.not_mem_nil, or_false] at hw
    rcases hw with rfl | hw | rfl
    · rw [Point.cross_self_outer]
    · rw [Point.cross_swap, neg_nonpos]
      exact hlv w hw v List.mem_cons_self
    · rw [Point.cross_self_right]
  · intro w hw
    simp only [List.mem_cons, List.mem_append, List.not_mem_nil, or_false] at hw
    rcases hw with rfl | hw | rfl
    · rw [Point.cross_self_right]
    · exact (List.pairwise_cons.1 hv).1 w hw
    · rw [Point.cross_self_outer]

/-- **Between an inner and an outer vertex** of a convex polygon, the line is met between the
crossings on the two ways around. -/
theorem IsConvex.crossing_mem_region (h : IsConvex ps) (hkeep : KeepsCrossings ps line)
    {u v : Point ℝ} (hu : u ∈ ps) (hv : v ∈ ps) (hin : 0 ≤ cross line.1 line.2 u)
    (hout : cross line.1 line.2 v < 0) :
    (crossing line (u, v)).coords ∈ region (Polygon.clipLine ps line) := by
  -- the polygon is read from the inner vertex on, by way of the outer one
  obtain ⟨k, k', rfl⟩ := List.append_of_mem hu
  have hv' : v ∈ k' ++ k := by
    have hne : v ≠ u := fun heq => (heq ▸ hin).not_gt hout
    simpa [hne, or_comm] using hv
  obtain ⟨l, l', hl⟩ := List.append_of_mem hv'
  have hturned : IsConvex (u :: (l ++ v :: l')) := by
    rw [← hl]
    exact (isConvex_append_comm k (u :: k')).1 h
  have hedges : ∀ e ∈ steps u (l ++ [v]) ++ steps v (l' ++ [u]),
      e ∈ Polygon.edges (k ++ u :: k') := by
    intro e he
    rw [(edges_append_comm k (u :: k')).mem_iff, List.cons_append, hl, edges_cons,
      List.append_assoc, List.cons_append, steps_append]
    exact he
  obtain ⟨hright, hleft⟩ := hturned.sides_of_diagonal
  obtain ⟨e, he, hein, heout⟩ :=
    exists_step (P := fun p => 0 ≤ cross line.1 line.2 p) hin hout.not_ge l
  obtain ⟨f, hf, hfout, hfin⟩ :=
    exists_step (P := fun p => ¬0 ≤ cross line.1 line.2 p) hout.not_ge (not_not_intro hin) l'
  have hecross : Crosses line e := fun h => heout (h.1 hein)
  have hfcross : Crosses line f := fun h => hfin fun hin => hfout (h.2 hin)
  have huv : Crosses line (u, v) := fun h => hout.not_ge (h.1 hin)
  have hep : cross u v (crossing line e) ≤ 0 := by
    obtain ⟨h₀, h₁⟩ := hecross.share_mem
    obtain ⟨he₁, he₂⟩ := mem_of_mem_steps he
    rw [crossing, Point.cross_toward]
    exact add_nonpos (mul_nonpos_of_nonneg_of_nonpos (sub_nonneg.2 h₁) (hright _ he₁))
      (mul_nonpos_of_nonneg_of_nonpos h₀ (hright _ he₂))
  have hfp : 0 ≤ cross u v (crossing line f) := by
    obtain ⟨h₀, h₁⟩ := hfcross.share_mem
    obtain ⟨hf₁, hf₂⟩ := mem_of_mem_steps hf
    rw [crossing, Point.cross_toward]
    exact add_nonneg (mul_nonneg (sub_nonneg.2 h₁) (hleft _ hf₁)) (mul_nonneg h₀ (hleft _ hf₂))
  have hw : cross u v (crossing line (u, v)) = 0 := by
    rw [crossing, Point.cross_toward, Point.cross_self_outer, Point.cross_self_right]
    ring
  exact mem_of_between (convex_region _) (hout.trans_le hin).ne' huv.cross_crossing hw
    hecross.cross_crossing hep hfcross.cross_crossing hfp
    (coords_mem_region (hkeep.crossing_mem (hedges e (List.mem_append_left _ he)) hecross))
    (coords_mem_region (hkeep.crossing_mem (hedges f (List.mem_append_right _ hf)) hfcross))

/-! ### Between two points -/

section means

variable {E : Type} [AddCommGroup E] [Module ℝ E] {f : E → ℝ}

/-- A quantity that a mean of two points has as the mean of theirs. -/
def IsAffine (f : E → ℝ) : Prop :=
  ∀ x y : E, ∀ s t : ℝ, s + t = 1 → f (s • x + t • y) = s * f x + t * f y

/-- Where the line from `x` to `y` passes through zero. -/
noncomputable def zeroBetween (f : E → ℝ) (x y : E) : E :=
  (f x / (f x - f y)) • y + (-f y / (f x - f y)) • x

theorem zeroBetween_comm (x y : E) : zeroBetween f x y = zeroBetween f y x := by
  rw [zeroBetween, zeroBetween, add_comm, ← neg_div_neg_eq (f x), ← neg_div_neg_eq (-f y), neg_sub,
    neg_neg]

theorem zeroBetween_neg (x y : E) : zeroBetween (fun z => -f z) x y = zeroBetween f x y := by
  simp only [zeroBetween]
  rw [← neg_div_neg_eq (f x), ← neg_div_neg_eq (-f y)]
  congr 3
  · ring
  · ring

/-- From one point `z`, the points that see zero in a convex set are a convex set. -/
theorem convex_zeroBetween (hf : IsAffine f) {k : Set E} (hk : Convex ℝ k) (z : E) :
    Convex ℝ {y | f z < f y ∧ zeroBetween f y z ∈ k} := by
  rintro x ⟨hx, hxk⟩ y ⟨hy, hyk⟩ s t hs ht hst
  have hmean := hf x y s t hst
  have hxz : 0 < f x - f z := by linarith
  have hyz : 0 < f y - f z := by linarith
  have hd : f (s • x + t • y) - f z = s * (f x - f z) + t * (f y - f z) := by
    obtain rfl : t = 1 - s := by linarith
    rw [hmean]
    ring
  have hpos : 0 < s * (f x - f z) + t * (f y - f z) := by
    rcases hs.eq_or_lt with rfl | hs
    · obtain rfl : t = 1 := by linarith
      linarith
    · exact add_pos_of_pos_of_nonneg (mul_pos hs hxz) (mul_nonneg ht hyz.le)
  refine ⟨by linarith, ?_⟩
  have hmem := hk hxk hyk
    (a := s * (f x - f z) / (s * (f x - f z) + t * (f y - f z)))
    (b := t * (f y - f z) / (s * (f x - f z) + t * (f y - f z)))
    (div_nonneg (mul_nonneg hs hxz.le) hpos.le) (div_nonneg (mul_nonneg ht hyz.le) hpos.le)
    (by rw [← add_div]; exact div_self hpos.ne')
  convert hmem using 1
  rw [zeroBetween, hd, hmean, zeroBetween, zeroBetween]
  have hxz' := hxz.ne'
  have hyz' := hyz.ne'
  have hpos' := hpos.ne'
  match_scalars
  · field_simp
  · field_simp
  · field_simp

variable {k s t : Set E}

/-- If the way from any point of `s` to any point of `t` passes through zero in a convex set, then
so does the way between means of them. -/
theorem zeroBetween_mem (hf : IsAffine f) (hk : Convex ℝ k)
    (hst : ∀ y ∈ s, ∀ z ∈ t, f z < f y ∧ zeroBetween f y z ∈ k) {y z : E}
    (hy : y ∈ convexHull ℝ s) (hz : z ∈ convexHull ℝ t) :
    f z < f y ∧ zeroBetween f y z ∈ k := by
  have hneg : IsAffine fun x => -f x := by
    intro x y a b hab
    show -f (a • x + b • y) = a * -f x + b * -f y
    rw [hf x y a b hab]
    ring
  -- seen from a point of `s`, zero is passed on the way down
  have hmeans : ∀ y ∈ s, ∀ z ∈ convexHull ℝ t, f z < f y ∧ zeroBetween f y z ∈ k := by
    intro y hy z hz
    have hmem := convexHull_min (fun z hz => ?_) (convex_zeroBetween hneg hk y) hz
    · rw [Set.mem_ofPred_eq, zeroBetween_neg, zeroBetween_comm] at hmem
      exact ⟨neg_lt_neg_iff.1 hmem.1, hmem.2⟩
    · rw [Set.mem_ofPred_eq, zeroBetween_neg, zeroBetween_comm]
      exact ⟨neg_lt_neg_iff.2 (hst y hy z hz).1, (hst y hy z hz).2⟩
  exact convexHull_min (fun y hy => hmeans y hy z hz) (convex_zeroBetween hf hk z) hy

/-- **A convex set has all points of a hull above zero** if it has the vertices above zero and the
places where the ways down from them pass through zero. -/
theorem mem_of_nonneg (hf : IsAffine f) (hk : Convex ℝ k) (hs : ∀ y ∈ s, 0 ≤ f y ∧ y ∈ k)
    (ht : ∀ z ∈ t, f z < 0) (hst : ∀ y ∈ s, ∀ z ∈ t, zeroBetween f y z ∈ k) {x : E}
    (hx : x ∈ convexHull ℝ (s ∪ t)) (hnonneg : 0 ≤ f x) : x ∈ k := by
  have hin : Convex ℝ {y | 0 ≤ f y ∧ y ∈ k} := by
    intro y hy z hz a b ha hb hab
    refine ⟨?_, hk hy.2 hz.2 ha hb hab⟩
    rw [hf y z a b hab]
    exact add_nonneg (mul_nonneg ha hy.1) (mul_nonneg hb hz.1)
  have hout : Convex ℝ {z | f z < 0} := by
    intro y hy z hz a b ha hb hab
    rw [Set.mem_ofPred_eq] at hy hz ⊢
    rw [hf y z a b hab]
    rcases ha.eq_or_lt with rfl | ha
    · obtain rfl : b = 1 := by linarith
      linarith
    · exact add_neg_of_neg_of_nonpos (mul_neg_of_pos_of_neg ha hy)
        (mul_nonpos_of_nonneg_of_nonpos hb hz.le)
  rcases s.eq_empty_or_nonempty with rfl | hsne
  · rw [Set.empty_union] at hx
    have hneg : f x < 0 := convexHull_min ht hout hx
    exact absurd hnonneg hneg.not_ge
  rcases t.eq_empty_or_nonempty with rfl | htne
  · rw [Set.union_empty] at hx
    exact (convexHull_min hs hin hx).2
  rw [convexHull_union hsne htne, mem_convexJoin] at hx
  obtain ⟨y, hy, z, hz, a, b, ha, hb, hab, rfl⟩ := hx
  have hzero := (zeroBetween_mem hf hk (fun y hy z hz =>
    ⟨(ht z hz).trans_le (hs y hy).1, hst y hy z hz⟩) hy hz).2
  obtain ⟨hy₀, hyk⟩ := convexHull_min hs hin hy
  have hz₀ : f z < 0 := convexHull_min ht hout hz
  rw [hf y z a b hab] at hnonneg
  -- the point is between the upper end and zero
  rcases hy₀.eq_or_lt with hy₀ | hy₀
  · obtain rfl : b = 0 := by
      rw [← hy₀, mul_zero, zero_add] at hnonneg
      exact le_antisymm (nonpos_of_mul_nonneg_left hnonneg hz₀) hb
    obtain rfl : a = 1 := by linarith
    simpa using hyk
  · have hd : 0 < f y - f z := by linarith
    have hmem := hk hyk hzero (a := 1 - b * (f y - f z) / f y) (b := b * (f y - f z) / f y)
      (by
        rw [sub_nonneg, div_le_one hy₀]
        obtain rfl : a = 1 - b := by linarith
        linarith)
      (div_nonneg (mul_nonneg hb hd.le) hy₀.le) (sub_add_cancel _ _)
    convert hmem using 1
    obtain rfl : a = 1 - b := by linarith
    rw [zeroBetween]
    have hd' := hd.ne'
    have hy₀' := hy₀.ne'
    match_scalars
    · field_simp
      ring
    · field_simp

end means

/-! ### Nothing is lost -/

theorem isAffine_cross (a b : Point ℝ) : IsAffine fun x => cross a b (Point.ofCoords x) :=
  fun x y _ _ hst => cross_combination a b x y hst

theorem Crosses.coords_crossing {u v : Point ℝ} (h : Crosses line (u, v)) :
    (crossing line (u, v)).coords =
      zeroBetween (fun x => cross line.1 line.2 (Point.ofCoords x)) u.coords v.coords := by
  have hd : cross line.1 line.2 u - cross line.1 line.2 v ≠ 0 := h.sub_ne_zero
  rw [crossing, coords_toward, zeroBetween, add_comm]
  simp only [share, Point.ofCoords_coords]
  congr 2
  field_simp
  ring

/-- **Nothing is lost**: a line leaves all points of a convex polygon to its left, unless a crossing
is dropped. -/
theorem IsConvex.region_clipLine (h : IsConvex ps) (hkeep : KeepsCrossings ps line) :
    region (Polygon.clipLine ps line) = region ps ∩ leftOf line.1 line.2 := by
  refine Set.Subset.antisymm region_clipLine_subset ?_
  rintro x ⟨hx, hleft⟩
  have hparts : Set.image Point.coords {p | p ∈ ps} =
      Set.image Point.coords {p | p ∈ ps ∧ 0 ≤ cross line.1 line.2 p} ∪
        Set.image Point.coords {p | p ∈ ps ∧ cross line.1 line.2 p < 0} := by
    rw [← Set.image_union]
    congr 1
    ext p
    have := le_or_gt 0 (cross line.1 line.2 p)
    simp only [Set.mem_ofPred_eq, Set.mem_union]
    tauto
  rw [region, hparts] at hx
  refine mem_of_nonneg (isAffine_cross line.1 line.2) (convex_region _) ?_ ?_ ?_ hx hleft
  · rintro _ ⟨u, ⟨hu, hin⟩, rfl⟩
    exact ⟨hin, coords_mem_region (mem_clipLine.2 (.inl ⟨hu, hin⟩))⟩
  · rintro _ ⟨v, ⟨-, hout⟩, rfl⟩
    exact hout
  · rintro _ ⟨u, ⟨hu, hin⟩, rfl⟩ _ ⟨v, ⟨hv, hout⟩, rfl⟩
    have huv : Crosses line (u, v) := fun h => hout.not_ge (h.1 hin)
    rw [← huv.coords_crossing]
    exact h.crossing_mem_region hkeep hu hv hin hout

end TrackFusion
