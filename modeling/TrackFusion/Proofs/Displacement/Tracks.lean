import TrackFusion.Proofs.Displacement.Geometry
import TrackFusion.Proofs.Displacement.Motion
import TrackFusion.Track.Basic

/-!
# Tracks of displaced objects

* `BoxTrack.measure_displace`, `PointTrack.measure_displace`: what a detection does to an estimate.
* `TrackModel.predict?_displace`, `measure_displace`, `stateAt?_displace`: the four kinds together.
* `Track.carried_displace` and so on: the life of a track.
* `Track.exportAt?_displace`: what is published of it.
-/

namespace TrackFusion

variable {α : Type} [ExactScalar α] (δ : Displacement α)

/-- The height is smoothed towards what is measured, from wherever it is counted. -/
theorem smoothHeight_add (z measured c : α) :
    smoothHeight (z + c) (measured + c) = smoothHeight z measured + c := by
  have hone : (1.0 : α) = 1 := by
    rw [ExactScalar.ofScientific_eq]
    norm_num
  rw [smoothHeight, smoothHeight, hone]
  ring

/-! ### Points -/

namespace PointTrack

def displace (p : PointTrack α) : PointTrack α :=
  { p with estimate := p.estimate.displace δ, z := p.z + δ.z }

variable (p : PointTrack α) (d : Detection α) (t : Time α)

@[simp] theorem displace_profile : (p.displace δ).profile = p.profile := rfl

@[simp] theorem displace_estimate : (p.displace δ).estimate = p.estimate.displace δ := rfl

@[simp] theorem displace_z : (p.displace δ).z = p.z + δ.z := rfl

theorem spawn_displace (q : PointProfile α) :
    spawn (t.displace δ) (d.displace δ) q = (spawn t d q).displace δ := by
  have hmean : ∀ v : Point α,
      (⟨#v[d.kinematics.pose.x + δ.x, d.kinematics.pose.y + δ.y, v.x, v.y]⟩ : Vec 4 α) =
        ⟨#v[d.kinematics.pose.x, d.kinematics.pose.y, v.x, v.y]⟩ + δ.state 4 :=
    fun v => (append_add_state δ _ _ #v[v.x, v.y]).symm
  rw [spawn, displace, Estimate.displace, Kalman.displace]
  dsimp only [spawn]
  rw [← hmean]
  rfl

theorem predict?_displace :
    (p.displace δ).predict? (t.displace δ) = (p.predict? t).map (displace δ) := by
  simp only [predict?, displace, Estimate.advance_displace _ (ConstantVelocity.uniform δ _),
    Option.map_map, Function.comp_def]

theorem limit_displace : (p.displace δ).limit = p.limit.displace δ := by
  rw [limit, limit, displace, displace,
    Estimate.mapMean_displace δ (ConstantVelocity.limit_displace δ _)]

theorem correct?_displace (k : Kinematics α) (velocityCounts : Bool) :
    (p.displace δ).correct? (k.displace δ) velocityCounts =
      (p.correct? k velocityCounts).map (Estimate.displace δ) := by
  simp only [correct?, displace, Kinematics.displace, Pose.displace_point, Pose.displace_yaw,
    ConstantVelocity.correctVelocity_displace, ConstantVelocity.correctPosition_displace]
  split <;> rfl

theorem measure_displace (velocityCounts : Bool) :
    (p.displace δ).measure (d.displace δ) velocityCounts =
      ((p.measure d velocityCounts).1.displace δ, (p.measure d velocityCounts).2) := by
  have hlimit := Estimate.mapMean_displace δ (ConstantVelocity.limit_displace δ p.profile.motion)
  simp only [measure, Detection.displace_kinematics, Detection.displace_shape,
    Kinematics.displace_pose, displace_profile, displace_estimate, displace_z, correct?_displace,
    Option.getD_map, Option.isSome_map, hlimit, Pose.displace_z, smoothHeight_add]
  rfl

theorem stateAt?_displace :
    (p.displace δ).stateAt? (t.displace δ) =
      (p.stateAt? t).map (Prod.map (Kinematics.displace δ) id) := by
  simp only [stateAt?, displace, ConstantVelocity.kinematicsAt?_displace, Option.map_map]
  rfl

end PointTrack

/-! ### Boxes -/

namespace BoxTrack

def displace (b : BoxTrack α) : BoxTrack α :=
  { b with estimate := b.estimate.displace δ, z := b.z + δ.z }

variable (b : BoxTrack α) (d : Detection α) (t : Time α) (ego : Isometry α)

@[simp] theorem displace_profile : (b.displace δ).profile = b.profile := rfl

@[simp] theorem displace_estimate : (b.displace δ).estimate = b.estimate.displace δ := rfl

@[simp] theorem displace_z : (b.displace δ).z = b.z + δ.z := rfl

@[simp] theorem displace_box : (b.displace δ).box = b.box := rfl

theorem spawn_displace (q : BoxProfile α) :
    spawn (t.displace δ) (d.displace δ) q = (spawn t d q).displace δ := by
  have hmean : ∀ x y yaw v ω : α, (⟨#v[x + δ.x, y + δ.y, yaw, v, ω]⟩ : Vec 5 α) =
      ⟨#v[x, y, yaw, v, ω]⟩ + δ.state 5 :=
    fun x y yaw v ω => (append_add_state δ x y #v[yaw, v, ω]).symm
  simp only [spawn, displace, Estimate.displace, Kalman.displace, Detection.displace,
    Kinematics.displace, Shape.enclosingBox_displace, ← hmean]
  rfl

theorem predict?_displace :
    (b.displace δ).predict? (t.displace δ) = (b.predict? t).map (displace δ) := by
  simp only [predict?, displace, Estimate.advance_displace _ (TurnRate.uniform δ _),
    Option.map_map, Function.comp_def]

theorem limit_displace : (b.displace δ).limit = b.limit.displace δ := by
  rw [limit, limit, displace, displace, Estimate.mapMean_displace δ (TurnRate.limit_displace δ _)]

theorem pose_displace : (b.displace δ).pose = b.pose.displace δ.flat := by
  simp [pose, displace, Estimate.displace, Kalman.displace, Pose.displace, δ.state_apply,
    Displacement.flat, TurnRate.State.x, TurnRate.State.y, TurnRate.State.yaw]

/-- The side that faces the observer is the same one. -/
theorem anchorOffset_displace (measured : Box α) :
    (b.displace δ).anchorOffset measured (ego.displace δ) = b.anchorOffset measured ego := by
  have hobserver : (⟨(ego.displace δ).origin.x, (ego.displace δ).origin.y⟩ : Point α) =
      Point.displace δ.flat ⟨ego.origin.x, ego.origin.y⟩ := rfl
  simp only [anchorOffset, pose_displace, hobserver, Anchor.facing_displace]
  rfl

theorem correct?_displace (k : Kinematics α) (pose : Pose α) :
    (b.displace δ).correct? (k.displace δ) (pose.displace δ) =
      (b.correct? k pose).map (Estimate.displace δ) := by
  have hspeed : (b.estimate.displace δ).filter.mean TurnRate.State.speed =
      b.estimate.filter.mean TurnRate.State.speed :=
    add_state_apply δ b.estimate.filter.mean (by decide)
  simp only [correct?, displace, Kinematics.displace, Pose.displace_point, Pose.displace_yaw,
    TurnRate.correctSpeed_displace, TurnRate.correctHeading_displace, hspeed]
  split <;> rfl

theorem measure_displace :
    (b.displace δ).measure (d.displace δ) (ego.displace δ) =
      ((b.measure d ego).1.displace δ, (b.measure d ego).2) := by
  have hyaw : (b.displace δ).pose.yaw = b.pose.yaw := by
    rw [pose_displace]
    rfl
  have hlimit := Estimate.mapMean_displace δ (TurnRate.limit_displace δ b.profile.motion)
  simp only [measure, Detection.displace_kinematics, Detection.displace_shape,
    Kinematics.displace_pose, Shape.enclosingBox_displace, displace_profile, displace_estimate,
    displace_box, displace_z, anchorOffset_displace, hyaw, Pose.displace_shift, correct?_displace,
    Option.getD_map, Option.isSome_map, hlimit, TurnRate.shift_displace, Pose.displace_z,
    smoothHeight_add, ← apply_ite (Estimate.displace δ)]
  -- the box that is measured has the same size, so it is accepted alike
  by_cases haccepted : b.profile.accepts d.shape (d.shape.enclosingBox d.kinematics.pose).2 = true
  · simp only [if_pos haccepted]
    rfl
  · simp only [if_neg haccepted]
    rfl

theorem stateAt?_displace :
    (b.displace δ).stateAt? (t.displace δ) =
      (b.stateAt? t).map (Prod.map (Kinematics.displace δ) id) := by
  simp only [stateAt?, displace, TurnRate.kinematicsAt?_displace, Option.map_map]
  rfl

end BoxTrack

/-! ### All kinds -/

def PassThrough.displace (p : PassThrough α) : PassThrough α :=
  ⟨p.detection.displace δ, p.measuredAt.displace δ⟩

theorem PassThrough.stateAt_displace (p : PassThrough α) (t : Time α) :
    (p.displace δ).stateAt (t.displace δ) =
      ((p.stateAt t).1.displace δ, (p.stateAt t).2) := by
  have hmoved : ∀ (k : Kinematics α) (dt : α),
      moved (k.displace δ) dt = (moved k dt).displace δ := by
    intro k dt
    simp only [moved, Kinematics.displace_pose, Pose.displace_yaw, Pose.displace_shift]
    rfl
  simp only [stateAt, displace, Time.displace_sub_displace, Detection.displace_kinematics,
    Detection.displace_shape, hmoved]
  -- what is published of the kinematics depends on which parts of them have been measured
  obtain ⟨pose, cov, known, heading, twist, moves, twistCov, twistKnown⟩ := p.detection.kinematics
  cases moves <;> cases known <;> rfl

namespace TrackModel

def displace : TrackModel α → TrackModel α
  | box b => box (b.displace δ)
  | point p => point (p.displace δ)
  | unclassified p => unclassified (p.displace δ)
  | passThrough p => passThrough (p.displace δ)

variable (m : TrackModel α) (d : Detection α) (t : Time α) (ego : Isometry α)

theorem predict?_displace :
    (m.displace δ).predict? (t.displace δ) = (m.predict? t).map (displace δ) := by
  cases m with
  | box b => simp [predict?, displace, BoxTrack.predict?_displace, Function.comp_def]
  | point p => simp [predict?, displace, PointTrack.predict?_displace, Function.comp_def]
  | unclassified p => simp [predict?, displace, PointTrack.predict?_displace, Function.comp_def]
  | passThrough p => rfl

theorem limit_displace : (m.displace δ).limit = m.limit.displace δ := by
  cases m with
  | box b => exact congrArg box (b.limit_displace δ)
  | point p => exact congrArg point (p.limit_displace δ)
  | unclassified p => exact congrArg unclassified (p.limit_displace δ)
  | passThrough p => rfl

theorem measure_displace :
    (m.displace δ).measure (d.displace δ) (t.displace δ) (ego.displace δ) =
      ((m.measure d t ego).1.displace δ, (m.measure d t ego).2) := by
  cases m with
  | box b => simp [measure, displace, BoxTrack.measure_displace]
  | point p => simp [measure, displace, PointTrack.measure_displace]
  | unclassified p => simp [measure, displace, PointTrack.measure_displace]
  | passThrough p => rfl

theorem stateAt?_displace :
    (m.displace δ).stateAt? (t.displace δ) =
      (m.stateAt? t).map (Prod.map (Kinematics.displace δ) id) := by
  cases m with
  | box b => exact b.stateAt?_displace δ t
  | point p => exact p.stateAt?_displace δ t
  | unclassified p => exact p.stateAt?_displace δ t
  | passThrough p => exact congrArg some (p.stateAt_displace δ t)

end TrackModel

theorem TrackKind.spawn_displace (k : TrackKind) (t : Time α) (d : Detection α) (label : Label) :
    k.spawn (t.displace δ) (d.displace δ) label = (k.spawn t d label).displace δ := by
  simp only [spawn, BoxTrack.spawn_displace, PointTrack.spawn_displace]
  cases k.boxProfile? (α := α) label with
  | some q => rfl
  | none => cases k <;> rfl

/-! ### Tracks -/

def Track.displace (t : Track α) : Track α :=
  { t with
    id := δ.name t.id
    model := t.model.displace δ
    lastMeasured := t.lastMeasured.displace δ }

namespace Track

variable (t : Track α) (d : Detection α) (now : Time α) (ego : Isometry α)

theorem spawn_displace (id : TrackId) (kind : TrackKind) :
    spawn (δ.name id) (now.displace δ) (d.displace δ) kind = (spawn id now d kind).displace δ := by
  simp only [spawn, TrackKind.spawn_displace, Detection.displace_label]
  rfl

theorem predict?_displace :
    (t.displace δ).predict? (now.displace δ) = (t.predict? now).map (displace δ) := by
  simp only [predict?, displace, TrackModel.predict?_displace, Option.map_map, Function.comp_def,
    TrackModel.limit_displace]

theorem measure_displace :
    (t.displace δ).measure (d.displace δ) (now.displace δ) (ego.displace δ) =
      ((t.measure d now ego).1.displace δ, (t.measure d now ego).2) := by
  simp only [measure, displace, TrackModel.measure_displace]
  rfl

@[simp] theorem elapsed_displace : (t.displace δ).elapsed (now.displace δ) = t.elapsed now :=
  Time.displace_sub_displace δ now t.lastMeasured

/-- **A displaced track is published as the displaced object.** -/
theorem exportAt?_displace :
    (t.displace δ).exportAt? (now.displace δ) =
      (t.exportAt? now).map (TrackedObject.displace δ) := by
  simp only [exportAt?, displace, TrackModel.stateAt?_displace]
  cases t.model.stateAt? now with
  | none => rfl
  | some s =>
    obtain ⟨k, shape⟩ := s
    show (if _ then some (TrackedObject.displace δ ⟨t.id, t.existence, t.classes, k, shape⟩)
      else none) = Option.map _ (if _ then some _ else none)
    rw [apply_ite (Option.map (TrackedObject.displace δ))]
    rfl

end Track

end TrackFusion
