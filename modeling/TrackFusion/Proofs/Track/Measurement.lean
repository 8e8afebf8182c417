import TrackFusion.Proofs.Displacement.Motion
import TrackFusion.Track.BoxTrack

/-!
# What a measurement does to a box

In exact arithmetic to move by nothing is not to move, so that one equation says what a measurement
does, whether or not the measured box counts.

* `BoxTrack.seenOffset`, `seenWay`: how far a measured centre is moved before it counts.
* `BoxTrack.measure_eq`: the equation.
-/

namespace TrackFusion

variable {α : Type} [ExactScalar α]

/-! ### Points -/

namespace Point

theorem add_eq (p q : Point α) : p + q = ⟨p.x + q.x, p.y + q.y⟩ := rfl

theorem sub_eq (p q : Point α) : p - q = ⟨p.x - q.x, p.y - q.y⟩ := rfl

theorem zero_eq : (0 : Point α) = ⟨0, 0⟩ := rfl

theorem bne_zero_iff {p : Point α} : (p != 0) = true ↔ p ≠ 0 := by
  have hbeq : (p == 0) = ((p.x == 0) && (p.y == 0)) := rfl
  have hzero : p = 0 ↔ p.x = 0 ∧ p.y = 0 := by
    cases p
    rw [zero_eq, mk.injEq]
  rw [bne, hbeq, Ne, hzero]
  simp [imp_iff_not_or]

end Point

/-! ### Means -/

namespace TurnRate

section limit

variable (p : Params α) (x : Vec 5 α)

@[simp] theorem limit_x : p.limit x State.x = x State.x := by
  rw [Params.limit, Vec.set_apply, Vec.set_apply, Vec.set_apply, if_neg (by decide),
    if_neg (by decide), if_neg (by decide)]

@[simp] theorem limit_y : p.limit x State.y = x State.y := by
  rw [Params.limit, Vec.set_apply, Vec.set_apply, Vec.set_apply, if_neg (by decide),
    if_neg (by decide), if_neg (by decide)]

@[simp] theorem limit_yaw : p.limit x State.yaw = Angle.normalize (x State.yaw) := by
  rw [Params.limit, Vec.set_apply, if_pos rfl]

@[simp] theorem limit_speed :
    p.limit x State.speed = Scalar.clamp (-p.maxSpeed) p.maxSpeed (x State.speed) := by
  rw [Params.limit, Vec.set_apply, Vec.set_apply, Vec.set_apply, if_neg (by decide),
    if_neg (by decide), if_pos rfl]

@[simp] theorem limit_turn :
    p.limit x State.turn = Scalar.clamp (-p.maxTurn) p.maxTurn (x State.turn) := by
  rw [Params.limit, Vec.set_apply, Vec.set_apply, if_neg (by decide), if_pos rfl]

end limit

section shift

variable (e : Estimate 5 α) (v : Point α)

@[simp] theorem shift_x : (shift e v).filter.mean State.x = e.filter.mean State.x + v.x := by
  rw [shift, Estimate.mapMean, Vec.set_apply, Vec.set_apply, if_neg (by decide), if_pos rfl]

@[simp] theorem shift_y : (shift e v).filter.mean State.y = e.filter.mean State.y + v.y := by
  rw [shift, Estimate.mapMean, Vec.set_apply, if_pos rfl]

@[simp] theorem shift_yaw : (shift e v).filter.mean State.yaw = e.filter.mean State.yaw := by
  rw [shift, Estimate.mapMean, Vec.set_apply, Vec.set_apply, if_neg (by decide),
    if_neg (by decide)]

@[simp] theorem shift_speed :
    (shift e v).filter.mean State.speed = e.filter.mean State.speed := by
  rw [shift, Estimate.mapMean, Vec.set_apply, Vec.set_apply, if_neg (by decide),
    if_neg (by decide)]

@[simp] theorem shift_turn : (shift e v).filter.mean State.turn = e.filter.mean State.turn := by
  rw [shift, Estimate.mapMean, Vec.set_apply, Vec.set_apply, if_neg (by decide),
    if_neg (by decide)]

@[simp] theorem shift_zero : shift e 0 = e := by
  have hmean : (e.filter.mean.set State.x (e.filter.mean State.x + 0)).set State.y
      (e.filter.mean State.y + 0) = e.filter.mean := by
    rw [add_zero, add_zero, Vec.set_self, Vec.set_self]
  exact congrArg (fun m => ({ e with filter := { e.filter with mean := m } } : Estimate 5 α)) hmean

end shift

end TurnRate

/-! ### Boxes -/

namespace Detection

variable (d : Detection α)

/-- The pose of the box around a detection. -/
def centre : Pose α := (d.shape.enclosingBox d.kinematics.pose).1

/-- The box around a detection. -/
def box : Box α := (d.shape.enclosingBox d.kinematics.pose).2

theorem centre_yaw : d.centre.yaw = d.kinematics.pose.yaw := by
  unfold centre Shape.enclosingBox
  split
  · rfl
  · rfl
  · unfold boxAround?
    split <;> rfl

end Detection

namespace BoxTrack

variable (b : BoxTrack α) (d : Detection α) (ego : Isometry α)

/-- The part of the box that faces the observer. -/
def anchor : Anchor :=
  .facing b.pose b.box.length b.box.width ⟨ego.origin.x, ego.origin.y⟩

/-- Whether the measured box counts. -/
def accepts : Bool := b.profile.accepts d.shape d.box

/-- How far a measured centre is moved in the frame of the object. -/
def seenOffset : Point α :=
  if b.accepts d && b.profile.anchored then b.anchorOffset d.box ego else 0

/-- How far a measured centre is moved in the world. -/
def seenWay : Point α := (b.seenOffset d ego).rotate b.pose.yaw

/-- The estimate after a correction, if there can be one. -/
def corrected? : Option (Estimate 5 α) :=
  b.correct? d.kinematics (d.centre.shift (b.seenWay d ego))

/-- **What a measurement does.** The estimate is corrected if that can be, and cut to its limits;
the box takes its share of a measured one that counts, and the centre follows it. -/
theorem measure_eq : b.measure d ego =
    ({ b with
        estimate := TurnRate.shift
          (((b.corrected? d ego).getD b.estimate).mapMean b.profile.motion.limit)
          ((b.seenWay d ego).scale (-b.profile.shapeGain))
        z := smoothHeight b.z d.centre.z
        box := if b.accepts d then b.profile.blendBox b.box d.box else b.box },
      (b.corrected? d ego).isSome) := by
  have hstill : b.seenOffset d ego = 0 →
      (b.seenWay d ego).scale (-b.profile.shapeGain) = 0 := by
    intro h
    simp [seenWay, h, Point.rotate, Point.scale, Point.zero_eq]
  -- without an offset the estimate is not moved
  have hshift : ∀ e : Estimate 5 α, (if b.seenOffset d ego != 0 then
      TurnRate.shift e ((b.seenWay d ego).scale (-b.profile.shapeGain)) else e) =
        TurnRate.shift e ((b.seenWay d ego).scale (-b.profile.shapeGain)) := by
    intro e
    split
    · rfl
    · next h =>
      rw [hstill (not_ne_iff.1 (mt Point.bne_zero_iff.2 h)), TurnRate.shift_zero]
  rw [← hshift]
  have hmeasure : b.measure d ego =
      if b.accepts d then
        ({ b with
            estimate := if b.seenOffset d ego != 0 then
                TurnRate.shift
                  (((b.corrected? d ego).getD b.estimate).mapMean b.profile.motion.limit)
                  ((b.seenWay d ego).scale (-b.profile.shapeGain))
              else ((b.corrected? d ego).getD b.estimate).mapMean b.profile.motion.limit
            z := smoothHeight b.z d.centre.z
            box := b.profile.blendBox b.box d.box },
          (b.corrected? d ego).isSome)
      else
        ({ b with
            estimate := ((b.corrected? d ego).getD b.estimate).mapMean b.profile.motion.limit
            z := smoothHeight b.z d.centre.z },
          (b.corrected? d ego).isSome) := rfl
  rw [hmeasure]
  cases haccepts : b.accepts d with
  | true => rw [if_pos rfl, if_pos rfl]
  | false =>
    have hzero : b.seenOffset d ego = 0 := by
      rw [seenOffset, haccepts]
      rfl
    have hne : ¬ (b.seenOffset d ego != 0) = true := mt Point.bne_zero_iff.1 (not_not.2 hzero)
    rw [if_neg hne, if_neg Bool.false_ne_true, if_neg Bool.false_ne_true]

/-- Where a measurement leaves the object. -/
theorem measure_pose : (b.measure d ego).1.pose =
    let pose := { b with estimate := (b.corrected? d ego).getD b.estimate }.pose
    { pose.shift ((b.seenWay d ego).scale (-b.profile.shapeGain)) with
      yaw := Angle.normalize pose.yaw } := by
  rw [measure_eq]
  simp [pose, Pose.shift, Estimate.mapMean]

end BoxTrack

end TrackFusion
