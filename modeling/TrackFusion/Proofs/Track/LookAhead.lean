import TrackFusion.Association.Basic
import TrackFusion.Proofs.Angles
import TrackFusion.Proofs.Track.Horizon

/-!
# Looking ahead at tracks

Detections are scored against what the tracks would publish at the time of the batch, and only then
the tracks are carried on to that time. Nothing in between makes a difference but whole turns of a
heading, which no score counts.

* `BoxTrack.Steady`, `PointTrack.Steady`: velocities within the limits, a symmetric covariance.
* `TrackedObject.Coincides`: the same, but for whole turns of the heading.
* `TrackModel.stateAt?_predict`: what a model reports before it is carried on, and after.
* `TrackedObject.Coincides.pairScore`: scores do not count whole turns.
* `Track.lookAhead_ok`: both for tracks, whether or not they can be carried on.
-/

namespace TrackFusion

section scalar

variable {α : Type} [Scalar α]

/-! ### Reports -/

namespace BoxTrack

/-- What is reported of a state of the estimate. -/
def report (b : BoxTrack α) (f : Kalman 5 α) : Kinematics α × Shape α :=
  let k := TurnRate.kinematics f
  ({ k with pose := { k.pose with z := b.z } }, .box b.box)

theorem stateAt?_eq (b : BoxTrack α) (t : Time α) :
    b.stateAt? t = (b.estimate.at? b.profile.motion.dynamics t).map b.report := by
  unfold stateAt? TurnRate.kinematicsAt?
  rw [Option.map_map]
  rfl

/-- The velocity is within its limits, and the covariance is symmetric. -/
structure Steady (b : BoxTrack α) : Prop where
  allowed : b.profile.motion.Allows b.estimate.filter.mean
  symmetric : b.estimate.filter.cov.transpose = b.estimate.filter.cov

end BoxTrack

namespace PointTrack

/-- What is reported of a state of the estimate. -/
def report (p : PointTrack α) (f : Kalman 4 α) : Kinematics α × Shape α :=
  let k := ConstantVelocity.kinematics f p.yaw
  ({ k with pose := { k.pose with z := p.z }, heading := heading p.shape }, p.shape)

theorem stateAt?_eq (p : PointTrack α) (t : Time α) :
    p.stateAt? t = (p.estimate.at? p.profile.motion.dynamics t).map p.report := by
  unfold stateAt? ConstantVelocity.kinematicsAt?
  rw [Option.map_map]
  rfl

/-- The velocity is within its limits, and the covariance is symmetric. -/
structure Steady (p : PointTrack α) : Prop where
  allowed : p.profile.motion.Allows p.estimate.filter.mean
  symmetric : p.estimate.filter.cov.transpose = p.estimate.filter.cov

end PointTrack

theorem Track.exportAt?_eq (t : Track α) (now : Time α) :
    t.exportAt? now = (t.model.stateAt? now).bind fun (k, shape) =>
      if properVariance (k.poseCov Axis.x Axis.x) && properVariance (k.poseCov Axis.y Axis.y) then
        some ⟨t.id, t.existence, t.classes, k, shape⟩
      else none := by
  unfold exportAt?
  cases t.model.stateAt? now <;> rfl

/-! ### Whole turns -/

/-- Kinematics that are the same, but for whole turns of the heading. -/
structure Kinematics.Coincides (k l : Kinematics α) : Prop where
  yaw : Angle.Alike k.pose.yaw l.pose.yaw
  eq : l = { k with pose := { k.pose with yaw := l.pose.yaw } }

/-- Published tracks that are the same, but for whole turns of the heading. -/
structure TrackedObject.Coincides (o o' : TrackedObject α) : Prop where
  kinematics : o.kinematics.Coincides o'.kinematics
  eq : o' = { o with kinematics := o'.kinematics }

end scalar

variable {finite : ℝ → Bool} {now : Time (Ranged finite)}

namespace Kinematics.Coincides

variable {k l : Kinematics (Ranged finite)}

theorem refl (k : Kinematics (Ranged finite)) : k.Coincides k := ⟨Angle.Alike.refl _, rfl⟩

/-- The height has nothing to do with the heading. -/
theorem raise (h : k.Coincides l) (z : Ranged finite) :
    Kinematics.Coincides { k with pose := { k.pose with z := z } }
      { l with pose := { l.pose with z := z } } := by
  obtain ⟨hyaw, heq⟩ := h
  refine ⟨hyaw, ?_⟩
  rw [heq]

end Kinematics.Coincides

theorem TrackedObject.Coincides.refl (o : TrackedObject (Ranged finite)) : o.Coincides o :=
  ⟨.refl _, rfl⟩

/-! ### Models -/

/-- To bring the heading into its range is to take whole turns from it. -/
theorem TurnRate.kinematics_limit {p : Params (Ranged finite)} {f : Kalman 5 (Ranged finite)}
    (h : p.Allows f.mean) :
    (kinematics f).Coincides (kinematics { f with mean := p.limit f.mean }) := by
  have hentry : ∀ i, f.mean.set State.yaw (Angle.normalize (f.mean State.yaw)) i =
      if State.yaw = i then Angle.normalize (f.mean State.yaw) else f.mean i :=
    fun i => Vec.set_apply ..
  have hx := hentry State.x
  have hy := hentry State.y
  have hyaw := hentry State.yaw
  have hspeed := hentry State.speed
  have hturn := hentry State.turn
  rw [if_neg (by decide)] at hx hy hspeed hturn
  rw [if_pos rfl] at hyaw
  rw [h.limit_eq]
  unfold kinematics
  simp only [hx, hy, hyaw, hspeed, hturn]
  exact ⟨Angle.alike_normalize _, rfl⟩

/-- **What a box reports for a time** before it is carried on to it is what it reports after, but
for whole turns. -/
theorem BoxTrack.Steady.stateAt?_predict {b b' : BoxTrack (Ranged finite)} (hb : b.Steady)
    (hnow : now ≤ b.estimate.time ∨ Estimate.minHorizon < (now - b.estimate.time : Ranged finite))
    (h : b.predict? now = some b') :
    ∃ k k' shape, b.stateAt? now = some (k, shape) ∧ b'.limit.stateAt? now = some (k', shape) ∧
      k.Coincides k' := by
  obtain ⟨e, he, rfl⟩ := Option.map_eq_some_iff.1 h
  obtain rfl := Estimate.advance_time he
  have hallowed : b.profile.motion.Allows e.filter.mean :=
    Estimate.advance_keeps (P := fun f => b.profile.motion.Allows f.mean)
      (fun _ _ _ hf hstep => hf.step hstep) he hb.allowed
  have hahead := Estimate.at?_of_advance (TurnRate.still _) hb.symmetric hnow he
  have hbefore : b.stateAt? e.time = some (b.report e.filter) := by
    rw [b.stateAt?_eq, hahead]
    rfl
  let e' := e.mapMean b.profile.motion.limit
  have hown : e'.at? b.profile.motion.dynamics e.time = some e'.filter := e'.at?_own _
  have hafter : { b with estimate := e }.limit.stateAt? e.time = some (b.report e'.filter) := by
    rw [stateAt?_eq]
    exact congrArg (Option.map b.report) hown
  exact ⟨_, _, _, hbefore, hafter, (TurnRate.kinematics_limit hallowed).raise b.z⟩

/-- **What a point reports for a time** before it is carried on to it is what it reports after. -/
theorem PointTrack.Steady.stateAt?_predict {p p' : PointTrack (Ranged finite)} (hp : p.Steady)
    (hnow : now ≤ p.estimate.time ∨ Estimate.minHorizon < (now - p.estimate.time : Ranged finite))
    (h : p.predict? now = some p') :
    ∃ k k' shape, p.stateAt? now = some (k, shape) ∧ p'.limit.stateAt? now = some (k', shape) ∧
      k.Coincides k' := by
  obtain ⟨e, he, rfl⟩ := Option.map_eq_some_iff.1 h
  obtain rfl := Estimate.advance_time he
  have hallowed : p.profile.motion.Allows e.filter.mean :=
    Estimate.advance_keeps (P := fun f => p.profile.motion.Allows f.mean)
      (fun _ _ _ hf hstep => hf.step hstep) he hp.allowed
  have hahead := Estimate.at?_of_advance (ConstantVelocity.still _) hp.symmetric hnow he
  have hbefore : p.stateAt? e.time = some (p.report e.filter) := by
    rw [p.stateAt?_eq, hahead]
    rfl
  have hlimit : { p with estimate := e }.limit = { p with estimate := e } := by
    unfold limit Estimate.mapMean
    rw [hallowed.limit_eq]
  have hown : e.at? p.profile.motion.dynamics e.time = some e.filter := e.at?_own _
  have hafter : { p with estimate := e }.limit.stateAt? e.time = some (p.report e.filter) := by
    rw [hlimit, stateAt?_eq]
    exact congrArg (Option.map p.report) hown
  exact ⟨_, _, _, hbefore, hafter, .refl _⟩

/-- **What a model reports for a time** before it is carried on to it is what it reports after, but
for whole turns. -/
theorem TrackModel.stateAt?_predict {m m' : TrackModel (Ranged finite)}
    (hm : m.All BoxTrack.Steady PointTrack.Steady)
    (hnow : ∀ u, m.time? = some u → now ≤ u ∨ Estimate.minHorizon < (now - u : Ranged finite))
    (h : m.predict? now = some m') :
    ∃ k k' shape, m.stateAt? now = some (k, shape) ∧ m'.limit.stateAt? now = some (k', shape) ∧
      k.Coincides k' := by
  cases m with
  | box b =>
    obtain ⟨b', hb, rfl⟩ := Option.map_eq_some_iff.1 h
    exact BoxTrack.Steady.stateAt?_predict hm (hnow _ rfl) hb
  | point p =>
    obtain ⟨p', hp, rfl⟩ := Option.map_eq_some_iff.1 h
    exact PointTrack.Steady.stateAt?_predict hm (hnow _ rfl) hp
  | unclassified p =>
    obtain ⟨p', hp, rfl⟩ := Option.map_eq_some_iff.1 h
    exact PointTrack.Steady.stateAt?_predict hm (hnow _ rfl) hp
  | passThrough p =>
    -- nothing is carried on, so that the two reports are one
    cases h
    exact ⟨_, _, _, rfl, rfl, .refl _⟩

/-! ### Scores -/

namespace Angle.Alike

variable {a a' b b' : Ranged finite}

theorem rotate (h : Alike a a') (p : Point (Ranged finite)) : p.rotate a' = p.rotate a := by
  obtain ⟨k, hk⟩ := alike_iff.1 h
  rw [show a' = _ from hk]
  exact Point.rotate_add_turns _ _ k

theorem difference (h : Alike a a') (h' : Alike b b') (frontBack : Bool) :
    Angle.difference a' b' frontBack = Angle.difference a b frontBack := by
  obtain ⟨k, hk⟩ := alike_iff.1 h
  obtain ⟨k', hk'⟩ := alike_iff.1 h'
  rw [show a' = _ from hk, show b' = _ from hk']
  exact difference_add_turns _ _ k k' frontBack

end Angle.Alike

namespace Kinematics.Coincides

variable {k k' l l' : Kinematics (Ranged finite)}

theorem footprint (h : k.Coincides k') (shape : Shape (Ranged finite)) :
    TrackFusion.footprint k'.pose shape = TrackFusion.footprint k.pose shape := by
  rw [h.eq]
  unfold TrackFusion.footprint
  simp only [h.yaw.rotate]
  rfl

theorem distance (h : k.Coincides k') (h' : l.Coincides l') :
    k'.pose.distance l'.pose = k.pose.distance l.pose := by
  rw [h.eq, h'.eq]
  rfl

theorem overlap (h : k.Coincides k') (h' : l.Coincides l') (shape other : Shape (Ranged finite))
    (minUnion : Ranged finite) :
    TrackFusion.overlap k'.pose shape l'.pose other minUnion =
      TrackFusion.overlap k.pose shape l.pose other minUnion := by
  unfold TrackFusion.overlap
  rw [h.footprint, h'.footprint]

theorem headingFits (h : k.Coincides k') (h' : l.Coincides l') (maxRad : Ranged finite) :
    Association.headingFits maxRad k'.pose l'.pose =
      Association.headingFits maxRad k.pose l.pose := by
  unfold Association.headingFits
  rw [h'.yaw.difference h.yaw]

end Kinematics.Coincides

/-- Scores do not count whole turns, neither of the track nor of the detection. -/
theorem Association.pairScore_coincides (g : Gates (Ranged finite))
    {o o' : TrackedObject (Ranged finite)} (h : o.Coincides o') (d : Detection (Ranged finite))
    {k : Kinematics (Ranged finite)} (hd : d.kinematics.Coincides k) :
    pairScore g o' { d with kinematics := k } = pairScore g o d := by
  have hkinematics := h.kinematics
  rw [h.eq]
  unfold pairScore
  dsimp only
  rw [hkinematics.overlap hd, hkinematics.headingFits hd, hkinematics.distance hd]
  rfl

/-- Scores do not count whole turns. -/
theorem TrackedObject.Coincides.pairScore {o o' : TrackedObject (Ranged finite)}
    (h : o.Coincides o') (g : Gates (Ranged finite)) (d : Detection (Ranged finite)) :
    Association.pairScore g o' d = Association.pairScore g o d :=
  Association.pairScore_coincides g h d (.refl _)

/-! ### Tracks -/

namespace Track

variable {t : Track (Ranged finite)}

/-- What a track publishes when it has been carried on is what it would have published before. -/
theorem exportAt?_carried (ht : t.model.All BoxTrack.Steady PointTrack.Steady)
    (hnow : ∀ u, t.model.time? = some u →
      now ≤ u ∨ Estimate.minHorizon < (now - u : Ranged finite)) :
    Option.Rel TrackedObject.Coincides (t.exportAt? now) ((t.carried now).exportAt? now) := by
  cases hm : t.model.predict? now with
  | none =>
    -- a track that cannot be carried on stays as it is
    have hstays : t.carried now = t := by
      unfold carried predict?
      rw [hm]
      rfl
    rw [hstays]
    cases t.exportAt? now with
    | none => exact .none
    | some o => exact .some (.refl o)
  | some m =>
    have hcarried : t.carried now = { t with model := m.limit } := by
      unfold carried predict?
      rw [hm]
      rfl
    obtain ⟨k, k', shape, hbefore, hafter, hcoincides⟩ := TrackModel.stateAt?_predict ht hnow hm
    have hcov : k'.poseCov = k.poseCov := by rw [hcoincides.eq]
    rw [hcarried, exportAt?_eq, exportAt?_eq, hbefore, hafter]
    dsimp only [Option.bind_some]
    rw [hcov]
    split
    · exact .some ⟨hcoincides, rfl⟩
    · exact .none

/-- **To look ahead is as good as to go ahead.** What a track publishes for a time before it is
carried on to that time, and what it publishes after, are both nothing, or the same but for whole
turns of the heading. So are its scores with the detections of that time. It does not matter which
results fail to be finite, nor whether the track can be carried on. -/
theorem lookAhead_ok (finite : ℝ → Bool) (t : Track (Ranged finite)) (now : Time (Ranged finite))
    (ht : t.model.All BoxTrack.Steady PointTrack.Steady)
    (hnow : ∀ u, t.model.time? = some u →
      now ≤ u ∨ Estimate.minHorizon < (now - u : Ranged finite)) :
    Option.Rel TrackedObject.Coincides (t.exportAt? now) ((t.carried now).exportAt? now) ∧
    ∀ (g : Gates (Ranged finite)) (b : Batch (Ranged finite)), b.stamp = now →
      Association.scoreRow g b (t.carried now) = Association.scoreRow g b t := by
  have hexport := exportAt?_carried ht hnow
  refine ⟨hexport, ?_⟩
  rintro g b rfl
  unfold Association.scoreRow
  generalize t.exportAt? b.stamp = o at hexport
  generalize (t.carried b.stamp).exportAt? b.stamp = o' at hexport
  cases hexport with
  | none => rfl
  | some h =>
    have hrow : Association.pairScore g _ = Association.pairScore g _ := funext (h.pairScore g)
    simp only [hrow]

/-- A car that turns left, and has turned by more than half a turn. -/
noncomputable def turningCar : Track (Ranged fun _ => true) where
  id := IdStream.counting.nth 0
  kind := .normalVehicle
  classes := [⟨.car, 1⟩]
  existence := 1
  model := .box ⟨.normalVehicle, ⟨⟨⟨#v[0, 0, 4.0, 5.0, 0.2]⟩, 1⟩, ⟨0⟩⟩, 0, ⟨4.0, 2.0, 1⟩⟩
  missStreak := 0
  misses := 0
  hits := 1
  lastMeasured := ⟨0⟩

theorem lookAhead_ok_turningCar :
    turningCar.model.All BoxTrack.Steady PointTrack.Steady ∧
    Option.Rel TrackedObject.Coincides (turningCar.exportAt? ⟨1⟩)
      ((turningCar.carried ⟨1⟩).exportAt? ⟨1⟩) := by
  have hspeed : (5.0 : ℝ) ≤ kilometresPerHour 100.0 := by
    unfold kilometresPerHour
    norm_num
  have hturn : (0.2 : ℝ) ≤ Scalar.degrees 30.0 := by
    have hpi : (3 : ℝ) < Scalar.pi := Real.pi_gt_three
    unfold Scalar.degrees
    linarith
  have hnegSpeed : -kilometresPerHour 100.0 ≤ (5.0 : ℝ) := by linarith
  have hnegTurn : -Scalar.degrees 30.0 ≤ (0.2 : ℝ) := by linarith
  have hone : (1 : Mat 5 5 (Ranged fun _ => true)).transpose = 1 := by
    ext i j
    rw [Mat.transpose_apply, Mat.one_apply, Mat.one_apply]
    simp only [eq_comm]
  have hsteady : turningCar.model.All BoxTrack.Steady PointTrack.Steady :=
    ⟨⟨hnegSpeed, hspeed, hnegTurn, hturn⟩, hone⟩
  have hfar : (Estimate.minHorizon : ℝ) < 1 - 0 := by
    unfold Estimate.minHorizon
    norm_num
  refine ⟨hsteady, (lookAhead_ok (fun _ => true) turningCar ⟨1⟩ hsteady ?_).1⟩
  intro u hu
  cases hu
  exact .inr hfar

end Track

end TrackFusion
