import TrackFusion.Proofs.Angles
import TrackFusion.Proofs.Covariance.Models
import TrackFusion.Proofs.Roster.Histories
import TrackFusion.Proofs.Track.Events
import TrackFusion.Proofs.Track.Horizon
import TrackFusion.Proofs.Track.Measurement

/-!
# Limits

A track starts with the velocities and the box of its first detection, however large they are. From
the first time it is carried on or given a detection its velocities are within the limits of its
motion, and from the first box that counts its box is within the limits for boxes.

* `TrackModel.Form.Sane`: limits that something can be within; `Track.sane_spawn`: those of new
  tracks.
* `TrackModel.Settled`, `settled_limit`, `settled_measure`: velocities and headings within limits.
* `BoxTrack.Sized`: boxes within limits.
* `Track.limits_ok`: all that happens to a track.
-/

namespace TrackFusion

namespace Track

variable {α : Type} [Scalar α]

/-- A track that is carried on is so within its limits. -/
theorem predict?_cases {t t' : Track α} {now : Time α} (h : t.predict? now = some t') :
    ∃ m, t.model.predict? now = some m ∧ t'.model = m.limit := by
  obtain ⟨m, hm, rfl⟩ := Option.map_eq_some_iff.1 h
  exact ⟨m, hm, rfl⟩

theorem step_form (t : Track α) (e : Event α) : (t.step e).model.form = t.model.form := by
  cases e with
  | predict now => exact t.form_carried now
  | limit => exact t.model.form_limit
  | measure d now ego => exact t.model.form_measure d now ego
  | miss => rfl

theorem after_form (t : Track α) (es : List (Event α)) :
    (t.after es).model.form = t.model.form := by
  induction es generalizing t with
  | nil => rfl
  | cons e es ih => rw [after_cons, ih, step_form]

end Track

/-! ### Limits that something can be within -/

structure BoxProfile.Sane (p : BoxProfile ℝ) : Prop where
  speed : 0 ≤ p.motion.maxSpeed
  turn : 0 ≤ p.motion.maxTurn
  sizes : ∀ l, p.sizeLimits = some l → l.min ≤ l.max

structure PointProfile.Sane (p : PointProfile ℝ) : Prop where
  vx : 0 ≤ p.motion.maxVx
  vy : 0 ≤ p.motion.maxVy

/-- The limits leave something to be within them. -/
def TrackModel.Form.Sane : TrackModel.Form ℝ → Prop
  | box p => p.Sane
  | point p => p.Sane
  | unclassified p => p.Sane
  | passThrough => True

theorem kilometresPerHour_nonneg {v : ℝ} (hv : 0 ≤ v) : 0 ≤ kilometresPerHour v := by
  unfold kilometresPerHour
  positivity

theorem BoxProfile.sane_of_boxProfile? {k : TrackKind} {l : Label} {p : BoxProfile ℝ}
    (h : k.boxProfile? l = some p) : p.Sane := by
  have hturn : (0 : ℝ) ≤ Scalar.degrees 30.0 := by
    have hpi : (0 : ℝ) ≤ Scalar.pi := Real.pi_pos.le
    unfold Scalar.degrees
    positivity
  rcases TrackKind.boxProfile?_cases h with rfl | rfl | rfl | rfl
  -- only big vehicles have limits for their sizes
  case inr.inl =>
    refine ⟨kilometresPerHour_nonneg (by norm_num), hturn, ?_⟩
    rintro l ⟨⟩
    norm_num
  all_goals exact ⟨kilometresPerHour_nonneg (by norm_num), hturn, by rintro l ⟨⟩⟩

/-- Whatever is detected, the limits of a new track are sane. -/
theorem Track.sane_spawn (id : TrackId) (now : Time ℝ) (d : Detection ℝ) (kind : TrackKind) :
    (Track.spawn id now d kind).model.form.Sane := by
  have hspeed : (0 : ℝ) ≤ kilometresPerHour 60.0 := kilometresPerHour_nonneg (by norm_num)
  show (kind.spawn now d d.label).form.Sane
  unfold TrackKind.spawn
  split
  · next p hp => exact BoxProfile.sane_of_boxProfile? hp
  · split
    · exact ⟨hspeed, hspeed⟩
    · trivial
    · exact ⟨hspeed, hspeed⟩

/-! ### Velocities and headings -/

theorem Scalar.clamp_mem {lo hi : ℝ} (h : lo ≤ hi) (x : ℝ) : clamp lo hi x ∈ Set.Icc lo hi := by
  unfold clamp
  split
  · exact ⟨le_rfl, h⟩
  · split
    · exact ⟨h, le_rfl⟩
    · next hlow hhigh => exact ⟨not_lt.1 hlow, not_lt.1 hhigh⟩

theorem ConstantVelocity.allows_limit {p : PointProfile ℝ} (h : p.Sane) (x : Vec 4 ℝ) :
    p.motion.Allows (p.motion.limit x) := by
  have hvx : p.motion.limit x State.vx =
      Scalar.clamp (-p.motion.maxVx) p.motion.maxVx (x State.vx) := by
    rw [Params.limit, Vec.set_apply, Vec.set_apply, if_neg (by decide), if_pos rfl]
  have hvy : p.motion.limit x State.vy =
      Scalar.clamp (-p.motion.maxVy) p.motion.maxVy (x State.vy) := by
    rw [Params.limit, Vec.set_apply, if_pos rfl]
  obtain ⟨hvxLow, hvxHigh⟩ := Scalar.clamp_mem (neg_le_self h.vx) (x State.vx)
  obtain ⟨hvyLow, hvyHigh⟩ := Scalar.clamp_mem (neg_le_self h.vy) (x State.vy)
  exact ⟨hvx ▸ hvxLow, hvx ▸ hvxHigh, hvy ▸ hvyLow, hvy ▸ hvyHigh⟩

theorem TurnRate.allows_limit {p : BoxProfile ℝ} (h : p.Sane) (x : Vec 5 ℝ) :
    p.motion.Allows (p.motion.limit x) := by
  obtain ⟨hspeedLow, hspeedHigh⟩ := Scalar.clamp_mem (neg_le_self h.speed) (x State.speed)
  obtain ⟨hturnLow, hturnHigh⟩ := Scalar.clamp_mem (neg_le_self h.turn) (x State.turn)
  constructor <;> simpa

/-- The velocities are within the limits, and the heading is in its range. -/
structure BoxTrack.Settled (b : BoxTrack ℝ) : Prop where
  allowed : b.profile.motion.Allows b.estimate.filter.mean
  heading : b.pose.yaw ∈ Set.Ioc (-Real.pi) Real.pi

/-- The velocities are within the limits. -/
def PointTrack.Settled (p : PointTrack ℝ) : Prop := p.profile.motion.Allows p.estimate.filter.mean

/-- The velocities are within the limits, whichever kind of model it is. -/
def TrackModel.Settled (m : TrackModel ℝ) : Prop := m.All BoxTrack.Settled PointTrack.Settled

theorem BoxTrack.settled_limit {b : BoxTrack ℝ} (h : b.profile.Sane) : b.limit.Settled where
  allowed := TurnRate.allows_limit h b.estimate.filter.mean
  heading := by
    have hyaw : b.limit.pose.yaw = Angle.normalize b.pose.yaw := TurnRate.limit_yaw ..
    rw [hyaw]
    exact Angle.normalize_mem _

/-- The box and the centre change after the velocities have been cut, which leaves these alone. -/
theorem BoxTrack.settled_measure {b : BoxTrack ℝ} (h : b.profile.Sane) (d : Detection ℝ)
    (ego : Isometry ℝ) : (b.measure d ego).1.Settled where
  allowed := by
    have hallows := TurnRate.allows_limit h ((b.corrected? d ego).getD b.estimate).filter.mean
    rw [measure_eq]
    refine ⟨?_, ?_, ?_, ?_⟩ <;> simp only [TurnRate.shift_speed, TurnRate.shift_turn]
    · exact hallows.speed_low
    · exact hallows.speed_high
    · exact hallows.turn_low
    · exact hallows.turn_high
  heading := by
    rw [measure_pose]
    exact Angle.normalize_mem _

namespace TrackModel

variable {m : TrackModel ℝ}

theorem settled_limit (h : m.form.Sane) : m.limit.Settled := by
  cases m with
  | box b => exact BoxTrack.settled_limit h
  | point p | unclassified p => exact ConstantVelocity.allows_limit h _
  | passThrough p => trivial

theorem settled_measure (h : m.form.Sane) (d : Detection ℝ) (now : Time ℝ) (ego : Isometry ℝ) :
    (m.measure d now ego).1.Settled := by
  cases m with
  | box b => exact BoxTrack.settled_measure h d ego
  | point p | unclassified p => exact ConstantVelocity.allows_limit h _
  | passThrough p => trivial

end TrackModel

/-! ### Boxes -/

/-- The box is within its limits, if there are any. -/
def BoxTrack.Sized (b : BoxTrack ℝ) : Prop :=
  ∀ l, b.profile.sizeLimits = some l →
    b.box.length ∈ Set.Icc l.min l.max ∧ b.box.width ∈ Set.Icc l.min l.max ∧
      b.box.height ∈ Set.Icc l.min l.max

/-- A box that counts is cut to the limits with the one that is there. -/
theorem BoxTrack.sized_measure {b : BoxTrack ℝ} {d : Detection ℝ} (h : b.profile.Sane)
    (haccepts : b.accepts d = true) (ego : Isometry ℝ) : (b.measure d ego).1.Sized := by
  intro l hl
  have hlimits : b.profile.sizeLimits = some l := by rwa [measure_profile] at hl
  have hbox : (b.measure d ego).1.box =
      l.clampBox (b.box.blend d.box b.profile.shapeGain) := by
    rw [measure_eq]
    dsimp only
    rw [if_pos haccepts, BoxProfile.blendBox, hlimits]
  have hle := h.sizes l hlimits
  rw [hbox]
  exact ⟨Scalar.clamp_mem hle _, Scalar.clamp_mem hle _, Scalar.clamp_mem hle _⟩

theorem BoxTrack.keeps_sized :
    Keeps (fun _ => True) fun b : BoxTrack ℝ => b.profile.Sane ∧ b.Sized where
  predict := by
    intro b b' now h hb'
    obtain ⟨e, -, rfl⟩ := Option.map_eq_some_iff.1 hb'
    exact h
  measure := by
    intro b d ego h _
    refine ⟨by rw [measure_profile]; exact h.1, ?_⟩
    cases haccepts : b.accepts d with
    | true => exact sized_measure h.1 haccepts ego
    | false =>
      rw [measure_eq]
      dsimp only
      rw [haccepts, if_neg Bool.false_ne_true]
      exact h.2
  limit h := h

/-! ### Tracks -/

/-- The heading that an event leads to, before it is brought into its range. -/
noncomputable def BoxTrack.yawAfter (b : BoxTrack ℝ) : Track.Event ℝ → ℝ
  | .predict now => ((b.predict? now).getD b).pose.yaw
  | .measure d _ ego => ((b.corrected? d ego).getD b.estimate).filter.mean TurnRate.State.yaw
  | _ => b.pose.yaw

namespace Track

/-- The track is carried on, cut to its limits or given a detection. -/
def Settles (t : Track ℝ) : Event ℝ → Prop
  | .predict now => (t.predict? now).isSome
  | .miss => False
  | _ => True

/-- The track is given a detection whose box counts. -/
def TakesBox (t : Track ℝ) : Event ℝ → Prop
  | .measure d _ _ => ∃ b, t.model = .box b ∧ b.accepts d = true
  | _ => False

variable {t : Track ℝ} {e : Event ℝ}

theorem step_settled (hsane : t.model.form.Sane) (h : t.Settles e) :
    (t.step e).model.Settled := by
  cases e with
  | predict now =>
    obtain ⟨t', ht'⟩ := Option.isSome_iff_exists.1 h
    obtain ⟨m, hm, hmodel⟩ := predict?_cases ht'
    have hstep : t.step (.predict now) = t' := congrArg (Option.getD · t) ht'
    rw [hstep, hmodel]
    refine TrackModel.settled_limit ?_
    rwa [TrackModel.form_predict? hm]
  | limit => exact TrackModel.settled_limit hsane
  | measure d now ego => exact TrackModel.settled_measure hsane d now ego
  | miss => cases h

theorem step_model_of_not_settles (h : ¬ t.Settles e) : (t.step e).model = t.model := by
  cases e with
  | predict now =>
    have hnone : t.predict? now = none := by simpa [Settles] using h
    show ((t.predict? now).getD t).model = t.model
    rw [hnone, Option.getD_none]
  | limit | measure d now ego => exact absurd trivial h
  | miss => rfl

/-- What every step of a model keeps is kept by all that happens to a track. -/
theorem step_all {P : BoxTrack ℝ → Prop} {Q : PointTrack ℝ → Prop}
    (hP : BoxTrack.Keeps (fun _ => True) P) (hQ : PointTrack.Keeps (fun _ => True) Q)
    (h : t.model.All P Q) : (t.step e).model.All P Q := by
  cases e with
  | predict now =>
    show (t.carried now).model.All P Q
    unfold carried
    cases ht' : t.predict? now with
    | none => exact h
    | some t' =>
      obtain ⟨m, hm, hmodel⟩ := predict?_cases ht'
      rw [Option.getD_some, hmodel]
      exact (h.predict? hP hQ hm).limit hP hQ
  | limit => exact h.limit hP hQ
  | measure d now ego => exact h.measure hP hQ trivial now ego
  | miss => exact h

theorem step_sized (hsane : t.model.form.Sane) (h : t.TakesBox e) :
    (t.step e).model.All (fun b => b.profile.Sane ∧ b.Sized) fun _ => True := by
  cases e with
  | measure d now ego =>
    obtain ⟨b, hb, haccepts⟩ := h
    have hprofile : b.profile.Sane := by rwa [hb] at hsane
    have hkept : (b.measure d ego).1.profile.Sane := by rwa [BoxTrack.measure_profile]
    show (t.model.measure d now ego).1.All (fun b => b.profile.Sane ∧ b.Sized) fun _ => True
    rw [hb]
    exact ⟨hkept, BoxTrack.sized_measure hprofile haccepts ego⟩
  | predict | limit | miss => cases h

/-- A heading is brought into its range by whole turns. -/
theorem step_heading {b : BoxTrack ℝ} (h : t.model = .box b) (e : Event ℝ) :
    ∃ b', (t.step e).model = .box b' ∧ Angle.Alike (b.yawAfter e) b'.pose.yaw := by
  have hlimit (b : BoxTrack ℝ) : Angle.Alike b.pose.yaw b.limit.pose.yaw := by
    have hyaw : b.limit.pose.yaw = Angle.normalize b.pose.yaw := TurnRate.limit_yaw ..
    rw [hyaw]
    exact Angle.alike_normalize _
  cases e with
  | predict now =>
    have hpredict : t.predict? now =
        (b.predict? now).map fun b' => { t with model := .box b'.limit } := by
      rw [predict?, h, TrackModel.predict?, Option.map_map]
      rfl
    show ∃ b', ((t.predict? now).getD t).model = .box b' ∧
      Angle.Alike ((b.predict? now).getD b).pose.yaw b'.pose.yaw
    rw [hpredict]
    cases b.predict? now with
    | none => exact ⟨b, h, Angle.Alike.refl _⟩
    | some b' => exact ⟨b'.limit, rfl, hlimit b'⟩
  | limit => exact ⟨b.limit, congrArg TrackModel.limit h, hlimit b⟩
  | measure d now ego =>
    refine ⟨(b.measure d ego).1, ?_, ?_⟩
    · show (t.model.measure d now ego).1 = _
      rw [h]
      rfl
    · rw [BoxTrack.measure_pose]
      exact Angle.alike_normalize _
  | miss => exact ⟨b, h, Angle.Alike.refl _⟩

/-- **Every track is within its limits** from the first time on that it is carried on or given a
detection, whatever else happens to it, and its box is from the first one on that counts. Headings
are brought into their range by whole turns. -/
theorem limits_ok :
    (∀ (id : TrackId) (now : Time ℝ) (d : Detection ℝ) (kind : TrackKind),
      (Track.spawn id now d kind).model.form.Sane) ∧
    (∀ (t : Track ℝ), t.model.form.Sane → ∀ events : List (Event ℝ),
      (t.after events).model.form = t.model.form ∧
      (t.Meets Settles events → (t.after events).model.Settled) ∧
      (t.Meets TakesBox events → (t.after events).model.All BoxTrack.Sized fun _ => True)) ∧
    ∀ (t : Track ℝ) (b : BoxTrack ℝ), t.model = .box b → ∀ e : Event ℝ,
      ∃ b', (t.step e).model = .box b' ∧ Angle.Alike (b.yawAfter e) b'.pose.yaw := by
  have hsane (t : Track ℝ) (e : Event ℝ) (h : t.model.form.Sane) :
      (t.step e).model.form.Sane := by rwa [step_form]
  refine ⟨sane_spawn, fun t ht events => ⟨t.after_form events, ?_, ?_⟩,
    fun t b h e => step_heading h e⟩
  · refine after_of_meets (I := fun t => t.model.form.Sane) (P := fun t => t.model.Settled) ht
      hsane (fun t e => step_settled) fun t e hI hP => ?_
    by_cases h : t.Settles e
    · exact step_settled hI h
    · rwa [step_model_of_not_settles h]
  · intro h
    have hboth := after_of_meets (I := fun t => t.model.form.Sane)
      (P := fun t => t.model.All (fun b => b.profile.Sane ∧ b.Sized) fun _ => True) ht hsane
      (fun t e => step_sized)
      (fun t e _ hP => step_all BoxTrack.keeps_sized (PointTrack.keeps_profile fun _ => True) hP) h
    exact hboth.imp (fun b hb => hb.2) fun p hp => hp

/-- A bus of some length that is far too fast. -/
noncomputable def racingBus (length : ℝ) : Detection ℝ where
  existence := 1
  classes := [⟨.bus, 1⟩]
  kinematics :=
    { pose := ⟨0, 0, 0, 7.0⟩
      poseCov := 1
      hasPoseCov := true
      heading := .available
      twist := ⟨1000.0, 0, 0⟩
      hasTwist := true
      twistCov := 1
      hasTwistCov := true }
  shape := .box ⟨length, 3.0, 3.0⟩

/-- A bus that is first seen as too long, then lost, and then seen as it is. -/
theorem limits_ok_racingBus :
    let t : Track ℝ := .spawn ⟨0⟩ ⟨0⟩ (racingBus 100) .bigVehicle
    ∃ b, (t.after [.miss, .measure (racingBus 12) ⟨1⟩ .identity, .predict ⟨2⟩]).model = .box b ∧
      b.profile = .bigVehicle ∧ b.Settled ∧ b.Sized := by
  intro t
  have haccepts :
      (BoxTrack.spawn ⟨0⟩ (racingBus 100) .bigVehicle).accepts (racingBus 12) = true := by
    have hsizes : (1.0 : ℝ) ≤ 12 ∧ (12 : ℝ) ≤ 40.0 ∧ (1.0 : ℝ) ≤ 3.0 ∧ (3.0 : ℝ) ≤ 40.0 := by norm_num
    show (true && (decide ((1.0 : ℝ) ≤ 12) && decide ((12 : ℝ) ≤ 40.0) &&
      decide ((1.0 : ℝ) ≤ 3.0) && decide ((3.0 : ℝ) ≤ 40.0))) = true
    simp only [hsizes, decide_true, Bool.and_true]
  obtain ⟨hspawn, hrun, -⟩ := limits_ok
  obtain ⟨hform, hsettled, hsized⟩ := hrun t (hspawn ⟨0⟩ ⟨0⟩ (racingBus 100) .bigVehicle)
    [.miss, .measure (racingBus 12) ⟨1⟩ .identity, .predict ⟨2⟩]
  have hsettled := hsettled (meets_iff.2 ⟨[.miss], _, _, rfl, trivial⟩)
  have hsized := hsized (meets_iff.2 ⟨[.miss], _, _, rfl, _, rfl, haccepts⟩)
  generalize (t.after _).model = m at hform hsettled hsized ⊢
  cases m with
  | box b => exact ⟨b, rfl, TrackModel.Form.box.inj hform, hsettled, hsized⟩
  | point p | unclassified p | passThrough p => cases hform

end Track

end TrackFusion
