import TrackFusion.Proofs.Displacement.Basic
import TrackFusion.Proofs.Geometry.Maps
import TrackFusion.Object.Anchor
import TrackFusion.Object.Overlap

/-!
# Geometry of displaced objects

Hulls, clips and boxes move with the objects; areas stay as they are, since the sides of a polygon
lead back to where they begin.

* `Polygon.convexHull_displace`, `clip_displace`: polygons.
* `Polygon.signedArea_displace`: the area by the sum over the sides.
* `footprint_displace`, `overlap_displace`: objects.
* `Shape.enclosingBox_displace`, `Anchor.facing_displace`: boxes.
-/

namespace TrackFusion

variable {α : Type} [ExactScalar α] (δ : Displacement α)

/-! ### Points -/

namespace Point

@[simp] theorem displace_sub_displace (p q : Point α) : p.displace δ - q.displace δ = p - q := by
  show Point.mk (p.x + δ.x - (q.x + δ.x)) (p.y + δ.y - (q.y + δ.y)) = ⟨p.x - q.x, p.y - q.y⟩
  rw [add_sub_add_right_eq_sub, add_sub_add_right_eq_sub]

@[simp] theorem displace_add (p q : Point α) : p.displace δ + q = (p + q).displace δ := by
  show Point.mk (p.x + δ.x + q.x) (p.y + δ.y + q.y) = ⟨p.x + q.x + δ.x, p.y + q.y + δ.y⟩
  rw [add_right_comm, add_right_comm p.y]

@[simp] theorem add_displace (p q : Point α) : p + q.displace δ = (p + q).displace δ := by
  show Point.mk (p.x + (q.x + δ.x)) (p.y + (q.y + δ.y)) = ⟨p.x + q.x + δ.x, p.y + q.y + δ.y⟩
  rw [add_assoc, add_assoc]

@[simp] theorem cross_displace (o a b : Point α) :
    cross (o.displace δ) (a.displace δ) (b.displace δ) = cross o a b := by
  simp [cross, displace]

@[simp] theorem order_displace (p q : Point α) :
    (p.displace δ).order (q.displace δ) = p.order q := by
  simp [order, displace, compare_add_right]

@[simp] theorem beq_displace (p q : Point α) : (p.displace δ == q.displace δ) = (p == q) := by
  show ((p.x + δ.x == q.x + δ.x) && (p.y + δ.y == q.y + δ.y)) = ((p.x == q.x) && (p.y == q.y))
  simp

end Point

namespace Polygon

variable (ps qs : List (Point α))

/-! ### Hulls -/

theorem sorted_displace :
    sorted (ps.map (Point.displace δ)) = (sorted ps).map (Point.displace δ) := by
  have hsort := List.map_mergeSort (f := Point.displace δ) (l := ps)
    (r := fun p q => p.order q != .gt) (s := fun p q => p.order q != .gt)
    fun p _ q _ => by rw [Point.order_displace]
  rw [sorted, sorted, ← eraseReps_map fun p _ q _ => Point.beq_displace δ p q, hsort]

/-- **Hulls move with their points.** -/
@[simp] theorem convexHull_displace :
    convexHull (ps.map (Point.displace δ)) = (convexHull ps).map (Point.displace δ) := by
  have hturns : KeepsTurns (Point.displace δ) (sorted ps) := by
    intro o _ a _ b _
    rw [Point.cross_displace]
  rw [convexHull_eq_circuit, sorted_displace, circuit_map hturns, ← convexHull_eq_circuit]

/-! ### Clips -/

theorem meet?_displace (p q a b : Point α) :
    meet? (p.displace δ) (q.displace δ) (a.displace δ) (b.displace δ) =
      (meet? p q a b).map (Point.displace δ) := by
  simp only [meet?, Point.cross_displace, Point.displace_sub_displace, Point.displace_add]
  split <;> rfl

theorem clipLine_displace (line : Point α × Point α) :
    clipLine (ps.map (Point.displace δ)) (line.map (Point.displace δ) (Point.displace δ)) =
      (clipLine ps line).map (Point.displace δ) := by
  have hside : ∀ side : Point α × Point α,
      clipSide (line.1.displace δ) (line.2.displace δ)
          (side.map (Point.displace δ) (Point.displace δ)) =
        (clipSide line.1 line.2 side).map (Point.displace δ) := by
    intro side
    simp only [clipSide, Prod.map_fst, Prod.map_snd, Point.cross_displace, meet?_displace,
      List.map_append, Option.toList_map]
    congr 1
    · split <;> rfl
    · split <;> rfl
  rw [clipLine, clipLine, edges_map, List.flatMap_map, List.map_flatMap]
  exact List.flatMap_congr fun side _ => hside side

/-- **Clips move with their polygons.** -/
theorem clip_displace :
    clip (ps.map (Point.displace δ)) (qs.map (Point.displace δ)) =
      (clip ps qs).map (Point.displace δ) := by
  rw [clip, clip, edges_map]
  -- one line of the other polygon after another cuts a part off
  generalize edges qs = lines
  induction lines generalizing ps with
  | nil => rfl
  | cons line lines ih =>
    rw [List.map_cons, List.foldl_cons, List.foldl_cons, clipLine_displace, ih]

/-! ### Areas -/

theorem foldl_add_eq_sum {β : Type} (f : β → α) (l : List β) :
    l.foldl (fun acc b => acc + f b) 0 = (l.map f).sum := by
  rw [List.sum_eq_foldl, List.foldl_map]

/-- **The sides of a polygon lead back to where they begin**, so that what changes from the one end
to the other adds up to nothing. -/
theorem sum_edges_sub {β : Type} (f : β → α) (l : List β) :
    ((edges l).map fun e => f e.1 - f e.2).sum = 0 := by
  have hlen : (l.tail ++ l.head?.toList).length = l.length := by
    cases l <;> simp
  have hfst : (edges l).map Prod.fst = l := List.map_fst_zip hlen.ge
  have hsnd : (edges l).map Prod.snd = l.tail ++ l.head?.toList := List.map_snd_zip hlen.le
  -- the second ends are the first ends, begun one later
  have hsum : ((edges l).map fun e => f e.2).sum = ((edges l).map fun e => f e.1).sum :=
    calc ((edges l).map fun e => f e.2).sum
        = (((edges l).map Prod.snd).map f).sum := by rw [List.map_map]; rfl
      _ = (((edges l).map Prod.fst).map f).sum := by
        rw [hsnd, hfst]
        cases l with
        | nil => rfl
        | cons a l => simp [add_comm]
      _ = ((edges l).map fun e => f e.1).sum := by rw [List.map_map]; rfl
  have hadd : ((edges l).map fun e => f e.1).sum =
      ((edges l).map fun e => f e.1 - f e.2).sum + ((edges l).map fun e => f e.2).sum := by
    rw [← List.sum_map_add]
    simp
  rw [hsum] at hadd
  exact right_eq_add.1 hadd

/-- **Areas stay as they are.** -/
@[simp] theorem signedArea_displace : signedArea (ps.map (Point.displace δ)) = signedArea ps := by
  -- each term changes by the difference of a linear form between the ends of its side
  have hterm : ∀ e : Point α × Point α,
      (e.1.displace δ).x * (e.2.displace δ).y - (e.2.displace δ).x * (e.1.displace δ).y =
        e.1.x * e.2.y - e.2.x * e.1.y +
          ((δ.y * e.1.x - δ.x * e.1.y) - (δ.y * e.2.x - δ.x * e.2.y)) := by
    intro e
    simp only [Point.displace]
    ring
  have hsum := sum_edges_sub (fun p : Point α => δ.y * p.x - δ.x * p.y) ps
  simp only [signedArea, List.length_map, foldl_add_eq_sum, edges_map, List.map_map]
  split
  · rfl
  · simp only [Function.comp_def, Prod.map_fst, Prod.map_snd, hterm]
    rw [List.sum_map_add, hsum, add_zero]

@[simp] theorem area_displace : area (ps.map (Point.displace δ)) = area ps := by
  rw [area, area, signedArea_displace]

@[simp] theorem sharedArea_displace :
    sharedArea (ps.map (Point.displace δ)) (qs.map (Point.displace δ)) = sharedArea ps qs := by
  simp only [sharedArea, List.length_map, clip_displace, area_displace]

end Polygon

/-! ### Objects -/

variable (pose : Pose α) (shape : Shape α)

@[simp] theorem footprint_displace :
    footprint (pose.displace δ) shape = (footprint pose shape).map (Point.displace δ) := by
  rw [footprint, footprint, ← Polygon.convexHull_displace, List.map_map]
  simp [Function.comp_def]

/-- **Overlaps stay as they are.** -/
@[simp] theorem overlap_displace (pose' : Pose α) (shape' : Shape α) (minUnion : α) :
    overlap (pose.displace δ) shape (pose'.displace δ) shape' minUnion =
      overlap pose shape pose' shape' minUnion := by
  simp only [overlap, footprint_displace, Polygon.area_displace, Polygon.sharedArea_displace]

theorem boxAround?_displace (outline : List (Point α)) (height : α) :
    boxAround? (pose.displace δ) outline height =
      (boxAround? pose outline height).map (Prod.map (Pose.displace δ) id) := by
  rw [boxAround?, boxAround?]
  split
  · rfl
  · simp [Pose.displace_shift]

@[simp] theorem Shape.enclosingBox_displace :
    shape.enclosingBox (pose.displace δ) =
      ((shape.enclosingBox pose).1.displace δ, (shape.enclosingBox pose).2) := by
  cases shape with
  | box b => rfl
  | cylinder diameter h => rfl
  | polygon outline h =>
    simp only [enclosingBox, boxAround?_displace]
    cases boxAround? pose outline h <;> rfl

@[simp] theorem Anchor.facing_displace (length width : α) (observer : Point α) :
    facing (pose.displace δ) length width (observer.displace δ) =
      facing pose length width observer := by
  simp only [facing, Pose.displace_point, Point.displace_sub_displace, Pose.displace_yaw]

end TrackFusion
