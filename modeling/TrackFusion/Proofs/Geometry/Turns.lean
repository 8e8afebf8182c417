import TrackFusion.Proofs.Exact
import TrackFusion.Geometry.Polygon

/-!
# Polygons that turn left

A polygon runs counter-clockwise around a convex region if no three of its vertices, in their
order, turn right.

* `Point.cross_rotate`, `cross_split`: the area of a triangle, from any vertex and from any point.
* `Point.toward`: a point between two others; `cross` is affine along it.
* `IsConvex`: polygons that turn left. Vertices may repeat and may lie on one line.
* `IsConvex.sublist`, `isConvex_append_comm`: some of the vertices, from any of them on.
* `IsConvex.insert`: another vertex on a side.
-/

namespace TrackFusion

@[ext] theorem Point.ext {α : Type} {p q : Point α} (hx : p.x = q.x) (hy : p.y = q.y) : p = q := by
  cases p
  cases q
  cases hx
  cases hy
  rfl

variable {α : Type} [ExactScalar α]

namespace Point

variable (a b c o p q : Point α)

theorem cross_rotate : cross b c a = cross a b c := by
  unfold cross
  ring

theorem cross_swap : cross a c b = -cross a b c := by
  unfold cross
  ring

/-- The line the other way around. -/
theorem cross_comm : cross b a c = -cross a b c := by
  unfold cross
  ring

@[simp] theorem cross_self_left : cross a a b = 0 := by
  unfold cross
  ring

@[simp] theorem cross_self_right : cross a b b = 0 := by
  unfold cross
  ring

@[simp] theorem cross_self_outer : cross a b a = 0 := by
  unfold cross
  ring

/-- A triangle is put together from those with any point on its three sides. -/
theorem cross_split : cross a b c = cross a b o + cross b c o + cross c a o := by
  unfold cross
  ring

/-- The point that is a share `t` of the way from `p` to `q`. -/
def toward (t : α) : Point α := p + (q - p).scale t

theorem mk_add_mk (x y x' y' : α) : (⟨x, y⟩ : Point α) + ⟨x', y'⟩ = ⟨x + x', y + y'⟩ := rfl

theorem mk_sub_mk (x y x' y' : α) : (⟨x, y⟩ : Point α) - ⟨x', y'⟩ = ⟨x - x', y - y'⟩ := rfl

theorem toward_x (t : α) : (p.toward q t).x = p.x + (q.x - p.x) * t := rfl

theorem toward_y (t : α) : (p.toward q t).y = p.y + (q.y - p.y) * t := rfl

theorem cross_toward (t : α) :
    cross a b (p.toward q t) = (1 - t) * cross a b p + t * cross a b q := by
  simp only [cross, toward_x, toward_y]
  ring

end Point

open Point (cross)

/-! ### Turning left -/

/-- No three vertices, in their order, turn right. -/
def IsConvex (ps : List (Point α)) : Prop := ps.Triplewise fun a b c => 0 ≤ cross a b c

theorem triplewise_sublist {β : Type} {r : β → β → β → Prop} {l l' : List β}
    (hs : l'.Sublist l) (h : l.Triplewise r) : l'.Triplewise r := by
  induction hs with
  | slnil => exact h
  | cons b _ ih => exact ih (List.triplewise_cons.1 h).2
  | cons_cons b hs ih =>
    obtain ⟨hb, h⟩ := List.triplewise_cons.1 h
    exact List.triplewise_cons.2 ⟨hb.sublist hs, ih h⟩

/-- It does not matter from which of its places on a list is read, if its triples may be turned
around. -/
theorem triplewise_append_comm {β : Type} {r : β → β → β → Prop}
    (hr : ∀ a b c, r a b c ↔ r b c a) (l l' : List β) :
    (l ++ l').Triplewise r ↔ (l' ++ l).Triplewise r := by
  have hturn : ∀ a (k : List β), k.Pairwise (r a) ↔ k.Pairwise fun x y => r x y a :=
    fun a k => List.Pairwise.iff fun x y => hr a x y
  rw [List.triplewise_append, List.triplewise_append]
  simp only [hturn]
  tauto

namespace IsConvex

variable {l l' : List (Point α)} {p q : Point α}

theorem sublist (hs : l'.Sublist l) (h : IsConvex l) : IsConvex l' := triplewise_sublist hs h

/-- The last of three vertices may be the second one once more. -/
theorem cross_concat (h : IsConvex (l ++ [p])) :
    (l ++ [p]).Pairwise fun a b => 0 ≤ cross a b p := by
  obtain ⟨-, -, -, hlast⟩ := List.triplewise_append.1 h
  rw [List.pairwise_append]
  refine ⟨hlast p (List.mem_singleton_self p), List.pairwise_singleton _ _, ?_⟩
  intro a _ b hb
  rw [List.mem_singleton.1 hb, Point.cross_self_right]

/-- So may the second one be the first. -/
theorem cross_cons (h : IsConvex (p :: l)) : (p :: l).Pairwise fun a b => 0 ≤ cross p a b := by
  refine List.pairwise_cons.2 ⟨fun a _ => ?_, (List.triplewise_cons.1 h).1⟩
  rw [Point.cross_self_left]

/-- **A point on a side** between two vertices that follow each other is one more vertex. -/
theorem insert (h : IsConvex (l ++ p :: q :: l')) {t : α} (h₀ : 0 ≤ t) (h₁ : t ≤ 1) :
    IsConvex (l ++ p :: p.toward q t :: q :: l') := by
  rw [List.append_cons] at h ⊢
  obtain ⟨hl, hr, hlr, hrl⟩ := List.triplewise_append.1 h
  -- seen from two others, the new vertex lies between the ends of its side
  have hmix : ∀ a b, 0 ≤ cross a b p → 0 ≤ cross a b q → 0 ≤ cross a b (p.toward q t) := by
    intro a b hp hq
    rw [Point.cross_toward]
    exact add_nonneg (mul_nonneg (sub_nonneg.2 h₁) hp) (mul_nonneg h₀ hq)
  have hfirst : (q :: l').Pairwise fun b c => 0 ≤ cross (p.toward q t) b c := by
    have hp : (q :: l').Pairwise fun b c => 0 ≤ cross p b c := hlr p (by simp)
    refine hp.imp₂ (fun b c hp hq => ?_) (cross_cons hr)
    rw [← Point.cross_rotate] at hp hq ⊢
    exact hmix b c hp hq
  have hlast : (l ++ [p]).Pairwise fun a b => 0 ≤ cross a b (p.toward q t) :=
    (cross_concat hl).imp₂ (fun a b => hmix a b) (hrl q List.mem_cons_self)
  have hmiddle : ∀ a ∈ l ++ [p], ∀ c ∈ q :: l', 0 ≤ cross a (p.toward q t) c := by
    intro a ha c hc
    have hp : 0 ≤ cross a p c := by
      rcases List.mem_append.1 ha with ha | ha
      · exact (List.pairwise_append.1 (hrl c hc)).2.2 a ha p (List.mem_singleton_self p)
      · rw [List.mem_singleton.1 ha, Point.cross_self_left]
    have hq : 0 ≤ cross a q c := by
      rcases List.mem_cons.1 hc with rfl | hc
      · rw [Point.cross_self_right]
      · exact (List.pairwise_cons.1 (hlr a ha)).1 c hc
    rw [← Point.cross_rotate, ← Point.cross_rotate] at hp hq ⊢
    exact hmix c a hp hq
  refine List.triplewise_append.2 ⟨hl, List.triplewise_cons.2 ⟨hfirst, hr⟩, ?_, ?_⟩
  · exact fun a ha => List.pairwise_cons.2 ⟨hmiddle a ha, hlr a ha⟩
  · intro c hc
    rcases List.mem_cons.1 hc with rfl | hc
    · exact hlast
    · exact hrl c hc

end IsConvex

theorem isConvex_append_comm (l l' : List (Point α)) : IsConvex (l ++ l') ↔ IsConvex (l' ++ l) :=
  triplewise_append_comm (fun a b c => by rw [Point.cross_rotate a b c]) l l'

end TrackFusion
