import TrackFusion.Proofs.Exact
import TrackFusion.Object.Shape

/-!
# Boxes around shapes

Any shape fits into a box along its heading.

* `Polygon.extent_spec`: extents run from the least coordinate to the greatest.
* `Shape.BoxForm`: which box belongs to a shape, and where its centre is.
* `Shape.enclosingBox_spec`: that is the box that is found.
-/

namespace TrackFusion

/-! ### Extents -/

theorem isLeast_foldl_min {β : Type} [LinearOrder β] (x : β) (xs : List β) :
    IsLeast {y | y ∈ x :: xs} (xs.foldl min x) := by
  induction xs generalizing x with
  | nil =>
    refine ⟨List.mem_singleton_self x, fun y hy => ?_⟩
    rw [List.mem_singleton.1 hy]
    rfl
  | cons y ys ih =>
    obtain ⟨hmem, hle⟩ := ih (min x y)
    constructor
    · rcases List.mem_cons.1 hmem with heq | hys
      · rcases min_choice x y with hmin | hmin
        · exact List.mem_cons.2 (.inl (heq.trans hmin))
        · exact List.mem_cons_of_mem x (List.mem_cons.2 (.inl (heq.trans hmin)))
      · exact List.mem_cons_of_mem x (List.mem_cons_of_mem y hys)
    · have hfirst : ys.foldl min (min x y) ≤ min x y := hle List.mem_cons_self
      intro z hz
      rcases List.mem_cons.1 hz with rfl | hz
      · exact hfirst.trans (min_le_left _ y)
      rcases List.mem_cons.1 hz with rfl | hz
      · exact hfirst.trans (min_le_right x _)
      · exact hle (List.mem_cons_of_mem _ hz)

/-- The extent of some coordinates runs from the least to the greatest. -/
theorem Polygon.extent_spec {xs : List ℝ} (h : xs ≠ []) :
    IsLeast {x | x ∈ xs} (extent xs).1 ∧ IsGreatest {x | x ∈ xs} (extent xs).2 := by
  obtain ⟨x, xs, rfl⟩ := List.exists_cons_of_ne_nil h
  have hmin : (Scalar.min : ℝ → ℝ → ℝ) = min := by
    ext a b
    exact ExactScalar.scalar_min_eq a b
  have hmax : (Scalar.max : ℝ → ℝ → ℝ) = max := by
    ext a b
    exact ExactScalar.scalar_max_eq a b
  have hextent : extent (x :: xs) = (xs.foldl min x, xs.foldl max x) := by
    unfold extent
    rw [List.filter_eq_self.2 fun y _ => by simp, hmin, hmax]
  rw [hextent]
  exact ⟨isLeast_foldl_min x xs, isLeast_foldl_min (β := ℝᵒᵈ) x xs⟩

/-! ### Boxes -/

namespace Shape

/-- The box of a shape along its heading: where its centre is in the frame of the object, and its
size. Less than three points have none. -/
inductive BoxForm : Shape ℝ → Point ℝ → Box ℝ → Prop
  | box (b : Box ℝ) : BoxForm (.box b) ⟨0, 0⟩ b
  | cylinder (diameter height : ℝ) :
      BoxForm (.cylinder diameter height) ⟨0, 0⟩ ⟨diameter, diameter, height⟩
  | few {ps : List (Point ℝ)} (hps : ps.length < 3) (height : ℝ) :
      BoxForm (.polygon ps height) ⟨0, 0⟩ ⟨0, 0, height⟩
  | outline {ps : List (Point ℝ)} (hps : 3 ≤ ps.length) (height : ℝ) {back front right left : ℝ}
      (hback : IsLeast {x | x ∈ ps.map Point.x} back)
      (hfront : IsGreatest {x | x ∈ ps.map Point.x} front)
      (hright : IsLeast {y | y ∈ ps.map Point.y} right)
      (hleft : IsGreatest {y | y ∈ ps.map Point.y} left) :
      BoxForm (.polygon ps height) ⟨(back + front) / 2, (right + left) / 2⟩
        ⟨front - back, left - right, height⟩

/-- **The box around a shape** has the form it should have, with its centre where it should be. -/
theorem enclosingBox_spec (s : Shape ℝ) (pose : Pose ℝ) :
    ∃ c b, s.BoxForm c b ∧ s.enclosingBox pose = (pose.shift (c.rotate pose.yaw), b) := by
  have hstay : pose.shift (Point.rotate ⟨0, 0⟩ pose.yaw) = pose := by
    simp [Pose.shift, Point.rotate]
  cases s with
  | box b => exact ⟨_, _, .box b, by rw [hstay]; rfl⟩
  | cylinder diameter height => exact ⟨_, _, .cylinder diameter height, by rw [hstay]; rfl⟩
  | polygon ps height =>
    by_cases hps : ps.length < 3
    · refine ⟨_, _, .few hps height, ?_⟩
      rw [hstay, enclosingBox, boxAround?, if_pos hps]
      rfl
    · have hne : ps ≠ [] := by
        rintro rfl
        exact hps (by decide)
      have hxs : ps.map Point.x ≠ [] := by simpa using hne
      have hys : ps.map Point.y ≠ [] := by simpa using hne
      obtain ⟨hback, hfront⟩ := Polygon.extent_spec hxs
      obtain ⟨hright, hleft⟩ := Polygon.extent_spec hys
      refine ⟨_, _, .outline (not_lt.1 hps) height hback hfront hright hleft, ?_⟩
      have hhalf (a b : ℝ) : (b + a) * 0.5 = (a + b) / 2 := by
        norm_num
        ring
      rw [enclosingBox, boxAround?, if_neg hps, ← hhalf, ← hhalf]
      rfl

end Shape

end TrackFusion
