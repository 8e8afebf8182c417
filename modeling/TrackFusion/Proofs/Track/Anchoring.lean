import TrackFusion.Proofs.Angles
import TrackFusion.Proofs.Track.Measurement

/-!
# Boxes that change their size

The side or corner of a box that faces the observer is seen best. If it has been measured where it
was expected, it stays there while the box takes on a share of the measured size, except for what
limits on the size cut off.

* `Anchor.spot`: where an anchor lies in the world.
* `Estimate.correct_mean`: a measurement that tells nothing new leaves the mean as it is.
* `BoxTrack.Agrees`: a detection that shows the anchor in its place.
* `BoxTrack.measure_spot`: how far the anchor moves.
* `BoxTrack.measure_anchor_iff`: when it stays.
-/

namespace TrackFusion

section exact

variable {α : Type} [ExactScalar α] {m n : ℕ}

/-! ### Anchors -/

namespace Anchor

variable (a : Anchor)

/-- Where the anchor of a box lies in the frame of the object. -/
def place (b : Box α) : Point α :=
  ⟨a.ahead.signed (b.length * 0.5), a.left.signed (b.width * 0.5)⟩

/-- Where the anchor of a box lies in the world. -/
def spot (pose : Pose α) (b : Box α) : Point α := pose.point + (a.place b).rotate pose.yaw

theorem offset_sub (b b' : Box α) :
    a.offset (b'.length - b.length) (b'.width - b.width) = a.place b' - a.place b := by
  have hsigned : ∀ (s : Band) (u v : α),
      s.signed ((u - v) * 0.5) = s.signed (u * 0.5) - s.signed (v * 0.5) := by
    intro s u v
    cases s <;> simp only [Band.signed] <;> ring
  simp only [offset, place, Point.sub_eq, hsigned]

/-- The anchor of a blended box lies on the way from the one to the other. -/
theorem place_blend (b b' : Box α) (gain : α) :
    a.place (b.blend b' gain) = a.place b + (a.place b' - a.place b).scale gain := by
  have hone : (1.0 : α) = 1 := by
    rw [ExactScalar.ofScientific_eq]
    norm_num
  have hsigned : ∀ (s : Band) (u v : α), s.signed (((1.0 - gain) * u + gain * v) * 0.5) =
      s.signed (u * 0.5) + (s.signed (v * 0.5) - s.signed (u * 0.5)) * gain := by
    intro s u v
    rw [hone]
    cases s <;> simp only [Band.signed] <;> ring
  simp only [place, Box.blend, Point.add_eq, Point.sub_eq, Point.scale, hsigned]

/-- Boxes have their anchor in the same place if they have the same length, should it lie ahead or
behind, and the same width, should it lie to the left or to the right. -/
theorem place_eq_iff {b b' : Box α} : a.place b = a.place b' ↔
    (a.ahead ≠ .within → b.length = b'.length) ∧ (a.left ≠ .within → b.width = b'.width) := by
  have hhalf : (0.5 : α) ≠ 0 := by
    rw [ExactScalar.ofScientific_eq]
    norm_num
  have hsigned : ∀ (s : Band) (u v : α),
      s.signed (u * 0.5) = s.signed (v * 0.5) ↔ (s ≠ .within → u = v) := by
    intro s u v
    cases s <;> simp [Band.signed, hhalf]
  simp only [place, Point.mk.injEq, hsigned]

end Anchor

/-! ### Measurements that tell nothing new -/

theorem Estimate.correct_mean {e : Estimate n α} {y : Vec m α} {c : Mat m n α} {r : Mat m m α}
    (h : e.filter.innovation y c = 0) :
    ((e.correct y c r).getD e).filter.mean = e.filter.mean := by
  have hzero : ∀ k : Mat n m α, k * (0 : Vec m α) = 0 := by
    intro k
    ext i
    simp [sum_eq]
  have hadd : e.filter.mean + (0 : Vec n α) = e.filter.mean := by
    ext i
    simp
  rw [Estimate.correct, Kalman.correct]
  cases e.filter.gain? c r with
  | none => rfl
  | some k =>
    simp only [h, hzero, hadd, Vec.isFinite_eq, if_true]
    rfl

/-- Measured entries that are the expected ones tell nothing new. -/
theorem innovation_observeFirst {f : Kalman n α} {y : Vec m α} (hmn : m ≤ n)
    (h : ∀ i : Fin m, y i = f.mean (i.castLE hmn)) :
    f.innovation y (Kalman.observeFirst m n) = 0 := by
  ext i
  rw [Kalman.innovation, Vec.sub_apply, observeFirst_mul_apply hmn, h, sub_self, Vec.zero_apply]

end exact

/-! ### Points -/

/-- A turned point tells where it was. -/
theorem Point.rotate_eq_zero_iff {p : Point ℝ} {angle : ℝ} : p.rotate angle = 0 ↔ p = 0 := by
  have hcircle := Real.sin_sq_add_cos_sq angle
  obtain ⟨x, y⟩ := p
  constructor
  · intro h
    have hx : x * Real.cos angle - y * Real.sin angle = 0 := congrArg Point.x h
    have hy : x * Real.sin angle + y * Real.cos angle = 0 := congrArg Point.y h
    rw [zero_eq, mk.injEq]
    constructor
    · linear_combination Real.cos angle * hx + Real.sin angle * hy - x * hcircle
    · linear_combination Real.cos angle * hy - Real.sin angle * hx - y * hcircle
  · intro h
    rw [zero_eq, mk.injEq] at h
    simp [rotate, zero_eq, h]

/-! ### Tracks -/

namespace BoxTrack

/-- A detection of a box that may change the one of the track, of which nothing but the size is new:
seen along the heading of the track, it has the anchor where the track has it. -/
structure Agrees (b : BoxTrack ℝ) (d : Detection ℝ) (a : Anchor) : Prop where
  accepted : b.accepts d = true
  heading : TurnRate.unwrap b.pose.yaw d.centre.yaw d.kinematics.heading = b.pose.yaw
  speed : d.kinematics.hasTwist = true →
    d.kinematics.twist.vx = b.estimate.filter.mean TurnRate.State.speed
  inPlace : a.spot { d.centre with yaw := b.pose.yaw } d.box = a.spot b.pose b.box

variable {b : BoxTrack ℝ} {d : Detection ℝ} {ego : Isometry ℝ}

/-- A pose that is the expected one tells nothing new, and neither does the expected speed. -/
theorem correct?_mean {k : Kinematics ℝ} {pose : Pose ℝ} (hplace : pose.point = b.pose.point)
    (hyaw : TurnRate.unwrap b.pose.yaw pose.yaw k.heading = b.pose.yaw)
    (hspeed : k.hasTwist = true → k.twist.vx = b.estimate.filter.mean TurnRate.State.speed) :
    ((b.correct? k pose).getD b.estimate).filter.mean = b.estimate.filter.mean := by
  have hx : pose.x = b.estimate.filter.mean TurnRate.State.x := congrArg Point.x hplace
  have hy : pose.y = b.estimate.filter.mean TurnRate.State.y := congrArg Point.y hplace
  rw [correct?]
  dsimp only
  split
  · next hused =>
    have htwist := hspeed (Bool.and_eq_true_iff.1 hused).1
    refine Estimate.correct_mean (innovation_observeFirst (by decide) fun i => ?_)
    fin_cases i
    · exact hx
    · exact hy
    · exact hyaw
    · exact htwist
  · refine Estimate.correct_mean (innovation_observeFirst (by decide) fun i => ?_)
    fin_cases i
    · exact hx
    · exact hy
    · exact hyaw

/-- In a track that is anchored, the anchor of the measured box comes to that of the track. -/
theorem seenWay_eq (hanchored : b.profile.anchored = true) (haccepted : b.accepts d = true) :
    b.seenWay d ego =
      ((b.anchor ego).place d.box - (b.anchor ego).place b.box).rotate b.pose.yaw := by
  rw [seenWay, seenOffset, haccepted, hanchored, Bool.and_self, if_pos rfl, ← Anchor.offset_sub]
  rfl

/-- **How far the anchor moves**: by what limits on the size take from the blended box. -/
theorem measure_spot (hanchored : b.profile.anchored = true) (h : b.Agrees d (b.anchor ego)) :
    (b.anchor ego).spot (b.measure d ego).1.pose (b.measure d ego).1.box =
      (b.anchor ego).spot b.pose b.box +
        ((b.anchor ego).place (b.profile.blendBox b.box d.box) -
          (b.anchor ego).place (b.box.blend d.box b.profile.shapeGain)).rotate b.pose.yaw := by
  have hway : b.seenWay d ego =
      ((b.anchor ego).place d.box - (b.anchor ego).place b.box).rotate b.pose.yaw :=
    b.seenWay_eq hanchored h.accepted
  -- a box of the size of the track would have been measured where the track is
  have hcentre : (d.centre.shift (b.seenWay d ego)).point = b.pose.point := by
    have hplace := h.inPlace
    simp only [Anchor.spot, Pose.point, Point.rotate, Point.add_eq, Point.mk.injEq] at hplace
    rw [hway]
    simp only [Pose.shift, Pose.point, Point.rotate, Point.sub_eq, Point.mk.injEq]
    constructor
    · linear_combination hplace.1
    · linear_combination hplace.2
  -- so nothing about the mean is new, and the centre only follows the box
  have hmean := correct?_mean (k := d.kinematics) hcentre h.heading h.speed
  have hmean' : ({ b with estimate := (b.corrected? d ego).getD b.estimate } : BoxTrack ℝ).pose =
      b.pose := by
    simp only [pose, corrected?, hmean]
  have hbox : (b.measure d ego).1.box = b.profile.blendBox b.box d.box := by
    rw [measure_eq, h.accepted]
    rfl
  rw [Anchor.spot, b.measure_pose, hmean', hbox, Angle.rotate_normalize, Anchor.spot, hway,
    Anchor.place_blend]
  simp only [Pose.shift, Pose.point, Point.rotate, Point.add_eq, Point.sub_eq, Point.scale,
    Point.mk.injEq]
  constructor <;> ring

/-- The anchor stays if limits on the size take nothing from the blended box where it matters. -/
theorem spot_measure_eq_iff (hanchored : b.profile.anchored = true)
    (h : b.Agrees d (b.anchor ego)) :
    (b.anchor ego).spot (b.measure d ego).1.pose (b.measure d ego).1.box =
        (b.anchor ego).spot b.pose b.box ↔
      (b.anchor ego).place (b.profile.blendBox b.box d.box) =
        (b.anchor ego).place (b.box.blend d.box b.profile.shapeGain) := by
  have hzero : ∀ p q : Point ℝ, p + q = p ↔ q = 0 := by
    rintro ⟨x, y⟩ ⟨x', y'⟩
    simp [Point.add_eq, Point.zero_eq]
  have hsub : ∀ p q : Point ℝ, p - q = 0 ↔ p = q := by
    rintro ⟨x, y⟩ ⟨x', y'⟩
    simp [Point.sub_eq, Point.zero_eq, sub_eq_zero]
  rw [measure_spot hanchored h, hzero, Point.rotate_eq_zero_iff, hsub]

/-- **When the anchor stays.** A detection of which nothing but the size is new leaves the side or
corner that faces the observer where it is, exactly if the limits on the size leave the blended box
as long as it is, should that part lie ahead or behind, and as wide as it is, should it lie to the
left or to the right. Without such limits it always stays. -/
theorem measure_anchor_iff (b : BoxTrack ℝ) (d : Detection ℝ) (ego : Isometry ℝ)
    (hanchored : b.profile.anchored = true) (h : b.Agrees d (b.anchor ego)) :
    ((b.anchor ego).spot (b.measure d ego).1.pose (b.measure d ego).1.box =
        (b.anchor ego).spot b.pose b.box ↔
      ((b.anchor ego).ahead ≠ .within → (b.profile.blendBox b.box d.box).length =
        (b.box.blend d.box b.profile.shapeGain).length) ∧
      ((b.anchor ego).left ≠ .within → (b.profile.blendBox b.box d.box).width =
        (b.box.blend d.box b.profile.shapeGain).width)) ∧
    (b.profile.sizeLimits = none →
      (b.anchor ego).spot (b.measure d ego).1.pose (b.measure d ego).1.box =
        (b.anchor ego).spot b.pose b.box) := by
  rw [spot_measure_eq_iff hanchored h]
  refine ⟨Anchor.place_eq_iff _, fun hfree => ?_⟩
  rw [BoxProfile.blendBox, hfree]

/-! ### Two vehicles ahead -/

/-- The track of a vehicle at rest on the axis, ahead of the observer. -/
noncomputable def ahead (p : BoxProfile ℝ) (x length : ℝ) : BoxTrack ℝ where
  profile := p
  estimate := ⟨⟨⟨#v[x, 0, 0, 0, 0]⟩, 1⟩, ⟨0⟩⟩
  z := 0
  box := ⟨length, 2.0, 1.0⟩

/-- A detection of a vehicle on the axis. -/
noncomputable def seenAhead (x length : ℝ) : Detection ℝ where
  existence := 1
  classes := [⟨.car, 1⟩]
  kinematics := .ofPose ⟨x, 0, 0, 0⟩
  shape := .box ⟨length, 2.0, 1.0⟩

/-- The middle of the rear. -/
def rear : Anchor := ⟨.below, .within⟩

theorem anchor_ahead (p : BoxProfile ℝ) {x length : ℝ} (h₀ : 0 ≤ length) (h : length / 2 < x) :
    (ahead p x length).anchor .identity = rear := by
  have hsin : Scalar.sin (0 : ℝ) = 0 := Real.sin_zero
  have hcos : Scalar.cos (0 : ℝ) = 1 := Real.cos_zero
  have hpose : (ahead p x length).pose = ⟨x, 0, 0, 0⟩ := rfl
  have hbehind : Band.of (-x) (length * 0.5) = .below := by
    rw [Band.of, if_neg (by norm_num; linarith), if_neg (by norm_num; linarith)]
  have hbetween : Band.of (0 : ℝ) (2.0 * 0.5) = .within := by
    rw [Band.of, if_neg (by norm_num), if_pos (by norm_num)]
  rw [anchor, hpose, Anchor.facing]
  simp [rear, Isometry.identity, Point3.zero, Pose.point, Point.sub_eq, Point.turnBack, hsin, hcos,
    ahead, hbehind, hbetween]

theorem agrees_ahead {p : BoxProfile ℝ} {x x' length length' : ℝ}
    (haccepts : p.accepts (.box ⟨length', 2.0, 1.0⟩) ⟨length', 2.0, 1.0⟩ = true)
    (hrear : x - length / 2 = x' - length' / 2) :
    (ahead p x length).Agrees (seenAhead x' length') rear where
  accepted := haccepts
  heading := by
    show TurnRate.unwrap 0 0 Heading.signUnknown = (0 : ℝ)
    have hround : Scalar.round (0 : ℝ) = 0 := by
      show (if (0 : ℝ) ≤ 0 then (⌊(0 : ℝ) + 1 / 2⌋ : ℝ) else _) = 0
      norm_num
    simp [TurnRate.unwrap, hround]
  speed := nofun
  inPlace := by
    have hsin : Scalar.sin (0 : ℝ) = 0 := Real.sin_zero
    have hcos : Scalar.cos (0 : ℝ) = 1 := Real.cos_zero
    have hpose : (ahead p x length).pose = ⟨x, 0, 0, 0⟩ := rfl
    rw [hpose]
    simp [rear, Anchor.spot, Anchor.place, Band.signed, Pose.point, Point.rotate, Point.add_eq,
      hsin, hcos, seenAhead, Detection.centre, Detection.box, Shape.enclosingBox,
      Kinematics.ofPose, ahead]
    norm_num
    linarith

/-- A car that turns out to be longer: its rear stays where it was. -/
theorem measure_anchor_iff_car :
    (ahead .normalVehicle 10 4).profile.anchored = true ∧
      (ahead .normalVehicle 10 4).Agrees (seenAhead 11 6)
        ((ahead .normalVehicle 10 4).anchor .identity) ∧
      (ahead .normalVehicle 10 4).anchor .identity = rear ∧
      rear.spot ((ahead .normalVehicle 10 4).measure (seenAhead 11 6) .identity).1.pose
          ((ahead .normalVehicle 10 4).measure (seenAhead 11 6) .identity).1.box =
        rear.spot (ahead .normalVehicle 10 4).pose (ahead .normalVehicle 10 4).box := by
  have hanchor : (ahead .normalVehicle 10 4).anchor .identity = rear :=
    anchor_ahead .normalVehicle (by norm_num) (by norm_num)
  have hagrees : (ahead .normalVehicle 10 4).Agrees (seenAhead 11 6)
      ((ahead .normalVehicle 10 4).anchor .identity) := by
    rw [hanchor]
    exact agrees_ahead rfl (by norm_num)
  have hstays := (measure_anchor_iff _ _ _ rfl hagrees).2 rfl
  rw [hanchor] at hstays
  exact ⟨rfl, hagrees, hanchor, hstays⟩

/-- A bus that turns out to be longer than a bus can be: its rear does not stay. -/
theorem bus_anchor_moves :
    (ahead .bigVehicle 34 28).profile.anchored = true ∧
      (ahead .bigVehicle 34 28).Agrees (seenAhead 39 38)
        ((ahead .bigVehicle 34 28).anchor .identity) ∧
      (ahead .bigVehicle 34 28).anchor .identity = rear ∧
      rear.spot ((ahead .bigVehicle 34 28).measure (seenAhead 39 38) .identity).1.pose
          ((ahead .bigVehicle 34 28).measure (seenAhead 39 38) .identity).1.box ≠
        rear.spot (ahead .bigVehicle 34 28).pose (ahead .bigVehicle 34 28).box := by
  have hanchor : (ahead .bigVehicle 34 28).anchor .identity = rear :=
    anchor_ahead .bigVehicle (by norm_num) (by norm_num)
  have haccepts : BoxProfile.bigVehicle.accepts (.box ⟨38, 2.0, 1.0⟩)
      (⟨38, 2.0, 1.0⟩ : Box ℝ) = true := by
    norm_num [BoxProfile.accepts, BoxProfile.bigVehicle, Shape.isBox, SizeLimits.accepts]
  have hagrees : (ahead .bigVehicle 34 28).Agrees (seenAhead 39 38)
      ((ahead .bigVehicle 34 28).anchor .identity) := by
    rw [hanchor]
    exact agrees_ahead haccepts (by norm_num)
  have hiff := spot_measure_eq_iff rfl hagrees
  rw [hanchor, Anchor.place_eq_iff] at hiff
  refine ⟨rfl, hagrees, hanchor, fun hstays => ?_⟩
  -- the blended box would be 33 metres long, three more than the limit
  have hlength := (hiff.1 hstays).1 (by decide)
  norm_num [ahead, seenAhead, BoxProfile.blendBox, BoxProfile.bigVehicle, Box.blend, Detection.box,
    Shape.enclosingBox, SizeLimits.clampBox, SizeLimits.clamp, Scalar.clamp] at hlength

end BoxTrack

end TrackFusion
