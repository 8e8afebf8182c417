import TrackFusion.Proofs.Displacement.Geometry
import TrackFusion.Proofs.Geometry.Turns

/-!
# Sides of polygons

The sides of a polygon are the steps of a way around it, back to its first vertex.

* `steps`: the steps of a way, with `edges_cons` for the way around a polygon.
* `edges_append_comm`: a polygon has the same sides from any of its vertices on.
* `exists_step`: a way from inside to outside has a step that leaves.
* `IsConvex.closed`, `IsConvex.left`: all vertices lie to the left of all sides.
* `twiceArea`: the sum over the sides, seen from any point (`twiceArea_eq_sum_cross`), or triangle
  by triangle (`twiceArea_cons`).
* `IsConvex.twiceArea_nonneg`, `area_eq_of_isConvex`: no area is counted negatively.
-/

namespace TrackFusion

open Point (cross)

/-! ### Ways -/

section ways

variable {β : Type}

/-- The steps of the way from a point along the points of a list. -/
def steps : β → List β → List (β × β)
  | _, [] => []
  | a, b :: l => (a, b) :: steps b l

@[simp] theorem steps_nil (a : β) : steps a [] = [] := rfl

@[simp] theorem steps_cons (a b : β) (l : List β) : steps a (b :: l) = (a, b) :: steps b l := rfl

theorem steps_append (a b : β) (l l' : List β) :
    steps a (l ++ b :: l') = steps a (l ++ [b]) ++ steps b l' := by
  induction l generalizing a with
  | nil => rfl
  | cons c l ih => rw [List.cons_append, List.cons_append, steps_cons, steps_cons, ih]; rfl

/-- **The sides of a polygon** are the steps of the way around it. -/
theorem edges_cons (a : β) (l : List β) : Polygon.edges (a :: l) = steps a (l ++ [a]) := by
  have hzip : ∀ (l : List β) (a b : β), (a :: l).zip (l ++ [b]) = steps a (l ++ [b]) := by
    intro l
    induction l with
    | nil => exact fun a b => rfl
    | cons c l ih =>
      intro a b
      rw [List.cons_append, List.zip_cons_cons, ih, steps_cons]
  exact hzip l a a

theorem exists_of_mem_steps {a : β} {l : List β} {e : β × β} (h : e ∈ steps a l) :
    ∃ k k', a :: l = k ++ e.1 :: e.2 :: k' := by
  induction l generalizing a with
  | nil => cases h
  | cons b l ih =>
    rcases List.mem_cons.1 h with rfl | h
    · exact ⟨[], l, rfl⟩
    · obtain ⟨k, k', hk⟩ := ih h
      exact ⟨a :: k, k', by rw [hk]; rfl⟩

/-- A way from inside to outside has a step that leaves. -/
theorem exists_step {P : β → Prop} {a b : β} (ha : P a) (hb : ¬P b) (l : List β) :
    ∃ e ∈ steps a (l ++ [b]), P e.1 ∧ ¬P e.2 := by
  induction l generalizing a with
  | nil => exact ⟨(a, b), List.mem_singleton_self _, ha, hb⟩
  | cons c l ih =>
    by_cases hc : P c
    · obtain ⟨e, he, hstep⟩ := ih hc
      exact ⟨e, List.mem_cons_of_mem _ he, hstep⟩
    · exact ⟨(a, c), List.mem_cons_self, ha, hc⟩

theorem mem_of_mem_steps {a : β} {l : List β} {e : β × β} (h : e ∈ steps a l) :
    e.1 ∈ a :: l ∧ e.2 ∈ a :: l := by
  obtain ⟨k, k', hk⟩ := exists_of_mem_steps h
  rw [hk]
  simp

theorem mem_of_mem_edges {ps : List β} {e : β × β} (h : e ∈ Polygon.edges ps) :
    e.1 ∈ ps ∧ e.2 ∈ ps := by
  cases ps with
  | nil => cases h
  | cons a l =>
    rw [edges_cons] at h
    have hmem : ∀ p ∈ a :: (l ++ [a]), p ∈ a :: l := by simp [or_comm]
    exact ⟨hmem _ (mem_of_mem_steps h).1, hmem _ (mem_of_mem_steps h).2⟩

/-- A polygon has the same sides from any of its vertices on. -/
theorem edges_append_comm (l l' : List β) :
    (Polygon.edges (l ++ l')).Perm (Polygon.edges (l' ++ l)) := by
  rcases l with _ | ⟨a, l⟩
  · rw [List.nil_append, List.append_nil]
  rcases l' with _ | ⟨b, l'⟩
  · rw [List.nil_append, List.append_nil]
  · rw [List.cons_append, List.cons_append, edges_cons, edges_cons]
    have hsteps : ∀ (a b : β) (l l' : List β), steps a ((l ++ b :: l') ++ [a]) =
        steps a (l ++ [b]) ++ steps b (l' ++ [a]) := by
      intro a b l l'
      rw [List.append_assoc, List.cons_append, steps_append]
    rw [hsteps, hsteps]
    exact List.perm_append_comm

end ways

variable {α : Type} [ExactScalar α]

/-! ### Convex polygons lie to the left of their sides -/

namespace IsConvex

variable {ps : List (Point α)} {a : Point α} {l : List (Point α)}

/-- The way around a convex polygon turns left, back to where it begins. -/
theorem closed (h : IsConvex (a :: l)) : IsConvex (a :: (l ++ [a])) := by
  rw [← List.cons_append]
  refine List.triplewise_append.2 ⟨h, List.triplewise_singleton a _, fun _ _ => ?_, ?_⟩
  · exact List.pairwise_singleton _ _
  · intro b hb
    rw [List.mem_singleton.1 hb]
    exact h.cross_cons.imp fun {x y} hxy => by rwa [Point.cross_rotate a x y]

/-- Of a way that turns left, all points are to the left of each step. -/
theorem left_of_step {b p : Point α} {k k' : List (Point α)} (h : IsConvex (k ++ a :: b :: k'))
    (hp : p ∈ k ++ a :: b :: k') : 0 ≤ cross a b p := by
  obtain ⟨-, hright, hbefore, -⟩ := List.triplewise_append.1 h
  rcases List.mem_append.1 hp with hp | hp
  · -- a point from before the step
    rw [Point.cross_rotate p a b]
    exact (List.pairwise_cons.1 (hbefore p hp)).1 b List.mem_cons_self
  · rcases List.mem_cons.1 hp with rfl | hp
    · rw [Point.cross_self_outer]
    · rcases List.mem_cons.1 hp with rfl | hp
      · rw [Point.cross_self_right]
      · exact (List.pairwise_cons.1 (List.triplewise_cons.1 hright).1).1 p hp

/-- **All vertices lie to the left of all sides.** -/
theorem left (h : IsConvex ps) {e : Point α × Point α} (he : e ∈ Polygon.edges ps) {p : Point α}
    (hp : p ∈ ps) : 0 ≤ cross e.1 e.2 p := by
  cases ps with
  | nil => cases hp
  | cons a l =>
    rw [edges_cons] at he
    obtain ⟨k, k', hk⟩ := exists_of_mem_steps he
    have hclosed := h.closed
    have hp : p ∈ k ++ e.1 :: e.2 :: k' := by
      rw [← hk]
      rcases List.mem_cons.1 hp with rfl | hp
      · exact List.mem_cons_self
      · exact List.mem_cons_of_mem _ (List.mem_append_left _ hp)
    rw [hk] at hclosed
    exact hclosed.left_of_step hp

end IsConvex

/-! ### Areas -/

/-- Twice the area, by the sum over the sides. -/
def twiceArea (ps : List (Point α)) : α :=
  ((Polygon.edges ps).map fun e => e.1.x * e.2.y - e.2.x * e.1.y).sum

/-- **Twice the area, seen from any point**: the triangles over the sides. -/
theorem twiceArea_eq_sum_cross (o : Point α) (ps : List (Point α)) :
    twiceArea ps = ((Polygon.edges ps).map fun e => cross o e.1 e.2).sum := by
  -- each term changes by the difference of a linear form between the ends of its side
  have hterm : ∀ e : Point α × Point α, e.1.x * e.2.y - e.2.x * e.1.y =
      cross o e.1 e.2 + ((o.y * e.1.x - o.x * e.1.y) - (o.y * e.2.x - o.x * e.2.y)) := by
    intro e
    unfold cross
    ring
  simp only [twiceArea, hterm]
  rw [List.sum_map_add, Polygon.sum_edges_sub fun p : Point α => o.y * p.x - o.x * p.y, add_zero]

/-- It does not matter at which vertex a polygon begins. -/
theorem twiceArea_of_isRotated {ps qs : List (Point α)} (h : ps.IsRotated qs) :
    twiceArea ps = twiceArea qs := by
  obtain ⟨k, rfl⟩ := h
  have hedges := edges_append_comm (ps.take (k % ps.length)) (ps.drop (k % ps.length))
  rw [List.take_append_drop, ← List.rotate_eq_drop_append_take_mod] at hedges
  exact (hedges.map _).sum_eq

/-- Triangle by triangle: a second vertex that is left out takes its triangle away. -/
theorem twiceArea_cons (o a b : Point α) (l : List (Point α)) :
    twiceArea (o :: a :: b :: l) = cross o a b + twiceArea (o :: b :: l) := by
  rw [twiceArea_eq_sum_cross o, twiceArea_eq_sum_cross o, edges_cons, edges_cons]
  simp

theorem twiceArea_pair (o a : Point α) : twiceArea [o, a] = 0 := by
  rw [twiceArea_eq_sum_cross o, edges_cons]
  simp

theorem twiceArea_singleton (o : Point α) : twiceArea [o] = 0 := by
  rw [twiceArea_eq_sum_cross o, edges_cons]
  simp

theorem signedArea_eq (ps : List (Point α)) : Polygon.signedArea ps = twiceArea ps / 2 := by
  have hhalf : (0.5 : α) = 1 / 2 := by
    rw [ExactScalar.ofScientific_eq]
    norm_num
  rw [Polygon.signedArea]
  split
  · rename_i hlen
    rcases ps with _ | ⟨o, _ | ⟨a, _ | ⟨b, l⟩⟩⟩
    · simp [twiceArea, Polygon.edges]
    · rw [twiceArea_singleton, zero_div]
    · rw [twiceArea_pair, zero_div]
    · simp only [List.length_cons] at hlen
      omega
  · have hsum := Polygon.foldl_add_eq_sum
      (fun e : Point α × Point α => e.1.x * e.2.y - e.2.x * e.1.y) (Polygon.edges ps)
    simp only [hsum, hhalf, twiceArea]
    ring

theorem IsConvex.twiceArea_nonneg {ps : List (Point α)} (h : IsConvex ps) : 0 ≤ twiceArea ps := by
  cases ps with
  | nil => exact le_rfl
  | cons o l =>
    rw [twiceArea_eq_sum_cross o]
    refine List.sum_nonneg fun x hx => ?_
    obtain ⟨e, he, rfl⟩ := List.mem_map.1 hx
    rw [← Point.cross_rotate]
    exact h.left he List.mem_cons_self

theorem area_eq_of_isConvex {ps : List (Point α)} (h : IsConvex ps) :
    Polygon.area ps = twiceArea ps / 2 := by
  rw [Polygon.area, signedArea_eq, ExactScalar.abs_eq]
  exact abs_of_nonneg (div_nonneg h.twiceArea_nonneg zero_le_two)

end TrackFusion
