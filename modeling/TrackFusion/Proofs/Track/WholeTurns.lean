import TrackFusion.Proofs.Angles
import TrackFusion.Proofs.Track.LookAhead
import TrackFusion.Proofs.Track.Measurement

/-!
# Whole turns

The heading of a track and those of its detections count only up to whole turns. A measured heading
is folded next to the estimated one, which is the one place where it could matter how they are
written down: it does if the measured heading is as far from the estimated one as it can be.

* `TurnRate.unwrap_spec`, `unwrap_add_turns`: the folded heading.
* `TurnRate.blind_turns`, `limit_add_turns`: motion and limits.
* `TurnRate.correctHeading_add_turns`, `correctSpeed_add_turns`: corrections.
* `BoxTrack.measure_turned`: measurements.
* `Track.wholeTurns_ok`: tracks and their scores.
-/

namespace TrackFusion

open Real

/-! ### Folded headings -/

namespace TurnRate

/-- Headings that differ by a multiple of this are the same to a detector. -/
noncomputable def period (h : Heading) : ℝ :=
  if h = .available then 2.0 * Scalar.pi else Scalar.pi

theorem period_eq (h : Heading) : period h = if h = .available then 2 * π else π := by
  rw [period, Scalar.fullTurn_eq]
  rfl

theorem period_pos (h : Heading) : 0 < period h := by
  rw [period_eq]
  split
  · exact two_pi_pos
  · exact pi_pos

/-- A whole turn is made of periods. -/
theorem exists_periods (h : Heading) : ∃ w : ℤ, 2 * π = w * period h := by
  rw [period_eq]
  split
  · exact ⟨1, by push_cast; ring⟩
  · exact ⟨2, by push_cast; ring⟩

theorem unwrap_eq (estimated measured : ℝ) (h : Heading) :
    unwrap estimated measured h =
      measured + Scalar.round ((estimated - measured) / period h) * period h := by
  have hperiod : (2.0 * if h = .available then Scalar.pi else Scalar.pi / 2.0 : ℝ) = period h := by
    have hpi : (Scalar.pi : ℝ) = π := rfl
    rw [hpi, period_eq]
    split
    · norm_num
    · norm_num
  unfold unwrap
  dsimp only
  rw [hperiod]

/-- **The folded heading** is the measured one, but for some periods, and is as near to the
estimated one as that can be. -/
theorem unwrap_spec (estimated measured : ℝ) (h : Heading) :
    ∃ n : ℤ, unwrap estimated measured h = measured + n * period h ∧
      |unwrap estimated measured h - estimated| ≤ period h / 2 := by
  have hpos := period_pos h
  obtain ⟨n, hn, hnear⟩ := Scalar.round_spec ((estimated - measured) / period h)
  refine ⟨n, by rw [unwrap_eq, hn], ?_⟩
  have hoff : unwrap estimated measured h - estimated =
      (n - (estimated - measured) / period h) * period h := by
    rw [unwrap_eq, hn]
    field_simp
    ring
  calc |unwrap estimated measured h - estimated|
      = |n - (estimated - measured) / period h| * period h := by
        rw [hoff, abs_mul, abs_of_pos hpos]
    _ ≤ 1 / 2 * period h := by gcongr
    _ = period h / 2 := by ring

/-- The measured heading is as far from the estimated one as it can be, so that it can be folded
either way. -/
def Torn (estimated measured : ℝ) (h : Heading) : Prop :=
  ∃ n : ℤ, estimated - measured = (n + 0.5) * period h

/-- Whole turns of the estimated heading move the folded one along, and those of the measured one
make no difference to it. -/
theorem unwrap_add_turns {estimated measured : ℝ} {h : Heading}
    (htorn : ¬ Torn estimated measured h) (j k : ℤ) :
    unwrap (estimated + j * (2 * π)) (measured + k * (2 * π)) h =
      unwrap estimated measured h + j * (2 * π) := by
  have hpos := period_pos h
  obtain ⟨w, hw⟩ := exists_periods h
  have hnear (n : ℤ) : (estimated - measured) / period h ≠ n + 1 / 2 := by
    intro hmid
    have hhalf : (0.5 : ℝ) = 1 / 2 := by norm_num
    exact htorn ⟨n, by rw [hhalf, (div_eq_iff hpos.ne').1 hmid]⟩
  have hmoved : (estimated + j * (2 * π) - (measured + k * (2 * π))) / period h =
      (estimated - measured) / period h + ((j - k) * w : ℤ) := by
    rw [hw]
    push_cast
    field_simp
    ring
  rw [unwrap_eq, unwrap_eq, hmoved, Scalar.round_add_int hnear, hw]
  push_cast
  ring

/-! ### Means -/

/-- Whole turns of the heading, which comes third in states and in measurements. -/
noncomputable def turns (n : ℕ) (k : ℤ) : Vec n ℝ :=
  .ofFn fun i => if i.val = 2 then k * (2.0 * Scalar.pi) else 0

variable {n m : ℕ} (k : ℤ)

theorem turns_apply (i : Fin n) : turns n k i = if i.val = 2 then k * (2 * π) else 0 := by
  rw [turns, Vec.ofFn_apply, Scalar.fullTurn_eq]

theorem add_turns_apply (x : Vec n ℝ) {i : Fin n} (hi : i.val ≠ 2) : (x + turns n k) i = x i := by
  rw [Vec.add_apply, turns_apply, if_neg hi, add_zero]

theorem add_turns_yaw (x : Vec 5 ℝ) :
    (x + turns 5 k) State.yaw = x State.yaw + k * (2 * π) := by
  have hthird : (State.yaw : Fin 5).val = 2 := by decide
  rw [Vec.add_apply, turns_apply, if_pos hthird]

theorem observeFirst_mul_turns (h : m ≤ n) :
    (Kalman.observeFirst m n : Mat m n ℝ) * turns n k = turns m k := by
  ext i
  rw [observeFirst_mul_apply h, turns_apply, turns_apply]
  rfl

/-- A measurement of a position and a heading, and of something else. -/
theorem append_add_turns (x y yaw : ℝ) (rest : Vector ℝ n) :
    (⟨#v[x, y, yaw] ++ rest⟩ + turns (3 + n) k : Vec (3 + n) ℝ) =
      ⟨#v[x, y, yaw + k * (2 * π)] ++ rest⟩ := by
  ext i
  rw [Vec.add_apply, turns_apply]
  show (#v[x, y, yaw] ++ rest)[i.val] + _ = (#v[x, y, yaw + k * (2 * π)] ++ rest)[i.val]
  rw [Vector.getElem_append, Vector.getElem_append]
  rcases i with ⟨_ | _ | _ | i, hi⟩
  · simp
  · simp
  · simp
  · simp

/-- **Steps go the same way** with a heading and with the same one some turns on. -/
theorem blind_turns (p : Params ℝ) : p.dynamics.Blind (turns 5 k) := by
  intro dt f
  have hyaw := add_turns_yaw k f.mean
  have hx := add_turns_apply k f.mean (i := State.x) (by decide)
  have hy := add_turns_apply k f.mean (i := State.y) (by decide)
  have hspeed := add_turns_apply k f.mean (i := State.speed) (by decide)
  have hturn := add_turns_apply k f.mean (i := State.turn) (by decide)
  have hnext : Params.next (f.mean + turns 5 k) dt = Params.next f.mean dt + turns 5 k := by
    simp only [Params.next, hx, hy, hyaw, hspeed, hturn, Scalar.sin_add_turns,
      Scalar.cos_add_turns, add_right_comm _ (k * (2 * π))]
    exact (append_add_turns k _ _ _ #v[_, _]).symm
  have htransition : Params.transition (f.mean + turns 5 k) dt = Params.transition f.mean dt := by
    simp only [Params.transition, hyaw, hspeed, Scalar.sin_add_turns, Scalar.cos_add_turns]
  have hnoise : p.noise ((f.mean + turns 5 k) State.yaw) dt = p.noise (f.mean State.yaw) dt := by
    rw [hyaw, Params.noise, turnedVariance_add_turns, Params.noise]
  show (f.addMean (turns 5 k)).predict (Params.next (f.mean + turns 5 k) dt)
    (Params.transition (f.mean + turns 5 k) dt) (p.noise ((f.mean + turns 5 k) State.yaw) dt) = _
  rw [hnext, htransition, hnoise, Kalman.predict_addMean]
  rfl

/-- The limits undo whole turns. -/
theorem limit_add_turns (p : Params ℝ) (x : Vec 5 ℝ) : p.limit (x + turns 5 k) = p.limit x := by
  have hspeed := add_turns_apply k x (i := State.speed) (by decide)
  have hturn := add_turns_apply k x (i := State.turn) (by decide)
  unfold Params.limit
  rw [add_turns_yaw, hspeed, hturn, Angle.normalize_add_turns]
  -- the heading is set in any case, and nothing else has changed
  ext i
  simp only [Vec.set_apply]
  by_cases hi : State.yaw = i
  · rw [if_pos hi, if_pos hi]
  · have hval : i.val ≠ 2 := fun h => hi (Fin.ext h.symm)
    rw [add_turns_apply k x hval]

/-! ### Corrections -/

variable {e : Estimate 5 ℝ} {yaw : ℝ} {heading : Heading}
  (htorn : ¬ Torn (e.filter.mean State.yaw) yaw heading)

include htorn

/-- **A correction moves along** with whole turns of the estimate, and does not know of those of
what is measured. -/
theorem correctHeading_add_turns (j : ℤ) (p : Point ℝ) (cov : Mat 3 3 ℝ) :
    correctHeading (e.addMean (turns 5 j)) p (yaw + k * (2 * π)) cov heading =
      (correctHeading e p yaw cov heading).map (Estimate.addMean · (turns 5 j)) := by
  have hyaw : (e.addMean (turns 5 j)).filter.mean State.yaw = _ :=
    add_turns_yaw j e.filter.mean
  have hy (ψ : ℝ) : (⟨#v[p.x, p.y, ψ + j * (2 * π)]⟩ : Vec 3 ℝ) = ⟨#v[p.x, p.y, ψ]⟩ + turns 3 j :=
    (append_add_turns j p.x p.y ψ #v[]).symm
  rw [correctHeading, correctHeading, hyaw, unwrap_add_turns htorn, hy]
  exact e.correct_addMean (observeFirst_mul_turns j (by decide)) _ cov

theorem correctSpeed_add_turns (j : ℤ) (p : Point ℝ) (cov : Mat 3 3 ℝ) (speed speedVar : ℝ) :
    correctSpeed (e.addMean (turns 5 j)) p (yaw + k * (2 * π)) cov speed speedVar heading =
      (correctSpeed e p yaw cov speed speedVar heading).map
        (Estimate.addMean · (turns 5 j)) := by
  have hyaw : (e.addMean (turns 5 j)).filter.mean State.yaw = _ :=
    add_turns_yaw j e.filter.mean
  have hy (ψ : ℝ) : (⟨#v[p.x, p.y, ψ + j * (2 * π), speed]⟩ : Vec 4 ℝ) =
      ⟨#v[p.x, p.y, ψ, speed]⟩ + turns 4 j := (append_add_turns j p.x p.y ψ #v[speed]).symm
  rw [correctSpeed, correctSpeed, hyaw, unwrap_add_turns htorn, hy]
  exact e.correct_addMean (observeFirst_mul_turns j (by decide)) _ _

end TurnRate

/-! ### Detections -/

/-- The same pose with a heading some whole turns on. -/
noncomputable def Pose.turned (p : Pose ℝ) (n : ℤ) : Pose ℝ :=
  { p with yaw := p.yaw + n * (2.0 * Scalar.pi) }

theorem Pose.turned_eq (p : Pose ℝ) (n : ℤ) :
    p.turned n = { p with yaw := p.yaw + n * (2 * π) } := by
  rw [turned, Scalar.fullTurn_eq]

theorem Pose.turned_yaw (p : Pose ℝ) (n : ℤ) : (p.turned n).yaw = p.yaw + n * (2 * π) := by
  rw [turned_eq]

noncomputable def Kinematics.turned (k : Kinematics ℝ) (n : ℤ) : Kinematics ℝ :=
  { k with pose := k.pose.turned n }

noncomputable def Detection.turned (d : Detection ℝ) (n : ℤ) : Detection ℝ :=
  { d with kinematics := d.kinematics.turned n }

/-- What is published of an object, with a heading some whole turns on. -/
noncomputable def TrackedObject.turned (o : TrackedObject ℝ) (n : ℤ) : TrackedObject ℝ :=
  { o with kinematics := o.kinematics.turned n }

theorem Kinematics.turned_zero (k : Kinematics ℝ) : k.turned 0 = k := by
  have hpose : k.pose.turned 0 = k.pose := by
    rw [Pose.turned_eq, Int.cast_zero, zero_mul, add_zero]
  rw [turned, hpose]

theorem Detection.turned_zero (d : Detection ℝ) : d.turned 0 = d := by
  rw [turned, Kinematics.turned_zero]

theorem TrackedObject.turned_zero (o : TrackedObject ℝ) : o.turned 0 = o := by
  rw [turned, Kinematics.turned_zero]

theorem Kinematics.coincides_turned (k : Kinematics ℝ) (n : ℤ) : k.Coincides (k.turned n) :=
  ⟨Angle.alike_iff.2 ⟨n, k.pose.turned_yaw n⟩, rfl⟩

theorem boxAround?_turned (pose : Pose ℝ) (n : ℤ) (outline : List (Point ℝ)) (height : ℝ) :
    boxAround? (pose.turned n) outline height =
      (boxAround? pose outline height).map (Prod.map (Pose.turned · n) id) := by
  simp only [boxAround?, Pose.turned_eq]
  split
  · rfl
  · simp only [Point.rotate_add_turns]
    rfl

/-- The box around a shape has the heading of the shape. -/
theorem Shape.enclosingBox_turned (shape : Shape ℝ) (pose : Pose ℝ) (n : ℤ) :
    shape.enclosingBox (pose.turned n) =
      Prod.map (Pose.turned · n) id (shape.enclosingBox pose) := by
  cases shape with
  | box b => rfl
  | cylinder diameter height => rfl
  | polygon outline height =>
    unfold enclosingBox
    dsimp only
    rw [boxAround?_turned]
    exact Option.getD_map (Prod.map (Pose.turned · n) id) (pose, (⟨0, 0, height⟩ : Box ℝ)) _

/-- **Scores do not count whole turns.** -/
theorem Association.pairScore_turned (g : Gates ℝ) (o : TrackedObject ℝ) (d : Detection ℝ)
    (j n : ℤ) : pairScore g (o.turned j) (d.turned n) = pairScore g o d :=
  @pairScore_coincides (fun _ => true) g o (o.turned j) ⟨o.kinematics.coincides_turned j, rfl⟩ d
    (d.kinematics.turned n) (d.kinematics.coincides_turned n)

namespace Detection

variable (d : Detection ℝ) (n : ℤ)

theorem centre_turned : (d.turned n).centre = d.centre.turned n := by
  show (d.shape.enclosingBox (d.kinematics.pose.turned n)).1 = _
  rw [Shape.enclosingBox_turned]
  rfl

theorem box_turned : (d.turned n).box = d.box := by
  show (d.shape.enclosingBox (d.kinematics.pose.turned n)).2 = _
  rw [Shape.enclosingBox_turned]
  rfl

end Detection

theorem TurnRate.kinematics_add_turns (n : ℤ) (f : Kalman 5 ℝ) :
    kinematics (f.addMean (turns 5 n)) = (kinematics f).turned n := by
  have hx := add_turns_apply n f.mean (i := State.x) (by decide)
  have hy := add_turns_apply n f.mean (i := State.y) (by decide)
  have hspeed := add_turns_apply n f.mean (i := State.speed) (by decide)
  have hturn := add_turns_apply n f.mean (i := State.turn) (by decide)
  unfold kinematics Kalman.addMean
  dsimp only
  rw [hx, hy, hspeed, hturn, add_turns_yaw, Kinematics.turned, Pose.turned_eq]

/-! ### Boxes -/

namespace BoxTrack

/-- The same track with a heading some whole turns on. -/
noncomputable def turned (b : BoxTrack ℝ) (n : ℤ) : BoxTrack ℝ :=
  { b with estimate := b.estimate.addMean (TurnRate.turns 5 n) }

/-- The measured heading is as far from that of the track as it can be. -/
def Torn (b : BoxTrack ℝ) (d : Detection ℝ) : Prop :=
  TurnRate.Torn b.pose.yaw d.kinematics.pose.yaw d.kinematics.heading

variable (b : BoxTrack ℝ) (d : Detection ℝ) (ego : Isometry ℝ) (n : ℤ)

theorem pose_turned : (b.turned n).pose = b.pose.turned n :=
  congrArg Kinematics.pose (TurnRate.kinematics_add_turns n b.estimate.filter)

theorem mapMean_addMean_turns (p : TurnRate.Params ℝ) (e : Estimate 5 ℝ) :
    (e.addMean (TurnRate.turns 5 n)).mapMean p.limit = e.mapMean p.limit := by
  unfold Estimate.mapMean Estimate.addMean Kalman.addMean
  dsimp only
  rw [TurnRate.limit_add_turns]

theorem limit_turned : (b.turned n).limit = b.limit :=
  congrArg (fun e => { b with estimate := e })
    (mapMean_addMean_turns n b.profile.motion b.estimate)

theorem predict?_turned (now : Time ℝ) :
    (b.turned n).predict? now = (b.predict? now).map (turned · n) := by
  have hadvance := b.estimate.advance_addMean (TurnRate.blind_turns n b.profile.motion) now
  unfold predict? turned
  dsimp only
  rw [hadvance, Option.map_map, Option.map_map]
  rfl

theorem accepts_turned (j : ℤ) : (b.turned j).accepts (d.turned n) = b.accepts d := by
  unfold accepts
  rw [d.box_turned]
  rfl

/-- The side that faces the observer is the same one. -/
theorem seenWay_turned (j : ℤ) : (b.turned j).seenWay (d.turned n) ego = b.seenWay d ego := by
  have hoffset (measured : Box ℝ) :
      (b.turned j).anchorOffset measured ego = b.anchorOffset measured ego := by
    unfold anchorOffset Anchor.facing
    rw [b.pose_turned, Pose.turned_eq]
    dsimp only
    rw [Point.turnBack_add_turns]
    rfl
  unfold seenWay seenOffset
  rw [accepts_turned, b.pose_turned, d.box_turned, hoffset, Pose.turned_eq]
  dsimp only
  rw [Point.rotate_add_turns]
  rfl

theorem measuredCov_turned (p : BoxProfile ℝ) (k : Kinematics ℝ) (pose : Pose ℝ) :
    measuredCov p (k.turned n) (pose.turned n).yaw = measuredCov p k pose.yaw := by
  unfold measuredCov
  rw [Pose.turned_yaw, turnedVariance_add_turns]
  rfl

theorem correct?_turned {k : Kinematics ℝ} {pose : Pose ℝ}
    (htorn : ¬ TurnRate.Torn b.pose.yaw pose.yaw k.heading) (j : ℤ) :
    (b.turned j).correct? (k.turned n) (pose.turned n) =
      (b.correct? k pose).map (Estimate.addMean · (TurnRate.turns 5 j)) := by
  have hspeed : (b.turned j).estimate.filter.mean TurnRate.State.speed =
      b.estimate.filter.mean TurnRate.State.speed :=
    TurnRate.add_turns_apply j b.estimate.filter.mean (by decide)
  have hcov : measuredCov b.profile (k.turned n) (pose.turned n).yaw =
      measuredCov b.profile k pose.yaw := measuredCov_turned n b.profile k pose
  have hcorrectSpeed (cov : Mat 3 3 ℝ) (v speedVar : ℝ) :
      TurnRate.correctSpeed (b.turned j).estimate (pose.turned n).point (pose.turned n).yaw cov v
          speedVar k.heading =
        (TurnRate.correctSpeed b.estimate pose.point pose.yaw cov v speedVar k.heading).map
          (Estimate.addMean · (TurnRate.turns 5 j)) := by
    rw [Pose.turned_yaw]
    exact TurnRate.correctSpeed_add_turns n htorn j pose.point cov v speedVar
  have hcorrectHeading (cov : Mat 3 3 ℝ) :
      TurnRate.correctHeading (b.turned j).estimate (pose.turned n).point (pose.turned n).yaw cov
          k.heading =
        (TurnRate.correctHeading b.estimate pose.point pose.yaw cov k.heading).map
          (Estimate.addMean · (TurnRate.turns 5 j)) := by
    rw [Pose.turned_yaw]
    exact TurnRate.correctHeading_add_turns n htorn j pose.point cov
  have hprofile : (b.turned j).profile = b.profile := rfl
  have hrest : (k.turned n).hasTwist = k.hasTwist ∧ (k.turned n).twist = k.twist ∧
      (k.turned n).hasTwistCov = k.hasTwistCov ∧ (k.turned n).twistCov = k.twistCov ∧
      (k.turned n).heading = k.heading := ⟨rfl, rfl, rfl, rfl, rfl⟩
  -- whether the speed counts has nothing to do with the heading
  unfold correct?
  simp only [hspeed, hprofile, hrest, hcov, hcorrectSpeed, hcorrectHeading]
  exact (apply_ite (Option.map (Estimate.addMean · (TurnRate.turns 5 j))) _ _ _).symm

theorem corrected?_turned (htorn : ¬ b.Torn d) (j : ℤ) :
    (b.turned j).corrected? (d.turned n) ego =
      (b.corrected? d ego).map (Estimate.addMean · (TurnRate.turns 5 j)) := by
  have hyaw : (d.centre.shift (b.seenWay d ego)).yaw = d.kinematics.pose.yaw := d.centre_yaw
  have hshift : (d.centre.turned n).shift (b.seenWay d ego) =
      (d.centre.shift (b.seenWay d ego)).turned n := rfl
  unfold corrected?
  rw [seenWay_turned, d.centre_turned, hshift]
  exact b.correct?_turned n (by rwa [hyaw]) j

/-- **A measurement does not know of whole turns**, neither of the track nor of the detection. -/
theorem measure_turned (htorn : ¬ b.Torn d) (j : ℤ) :
    (b.turned j).measure (d.turned n) ego = b.measure d ego := by
  have hestimate : ((b.corrected? d ego).map (Estimate.addMean · (TurnRate.turns 5 j))).getD
      (b.turned j).estimate =
        ((b.corrected? d ego).getD b.estimate).addMean (TurnRate.turns 5 j) :=
    Option.getD_map (Estimate.addMean · (TurnRate.turns 5 j)) b.estimate _
  have hprofile : (b.turned j).profile = b.profile := rfl
  have hz : (d.centre.turned n).z = d.centre.z := rfl
  -- corrected or not, the estimate has the turns of the track, and the limits undo them
  rw [measure_eq, measure_eq, corrected?_turned _ _ _ _ htorn, seenWay_turned, accepts_turned,
    d.box_turned, d.centre_turned, hz, Option.isSome_map, hestimate, hprofile,
    mapMean_addMean_turns]
  rfl

/-- What is reported for a time is the same, but for the turns. -/
theorem stateAt?_turned (now : Time ℝ) :
    (b.turned n).stateAt? now = (b.stateAt? now).map (Prod.map (Kinematics.turned · n) id) := by
  have hat : (b.turned n).estimate.at? b.profile.motion.dynamics now = _ :=
    b.estimate.at?_addMean (TurnRate.blind_turns n b.profile.motion) now
  have hreport (f : Kalman 5 ℝ) : (b.turned n).report (f.addMean (TurnRate.turns 5 n)) =
      Prod.map (Kinematics.turned · n) id (b.report f) := by
    unfold report
    rw [TurnRate.kinematics_add_turns]
    rfl
  have hprofile : (b.turned n).profile = b.profile := rfl
  rw [stateAt?_eq, stateAt?_eq, hprofile, hat, Option.map_map, Option.map_map]
  exact congrArg (Option.map · _) (funext hreport)

end BoxTrack

/-! ### Tracks -/

namespace Track

/-- The same track with a heading some whole turns on, if it has one. -/
noncomputable def turned (t : Track ℝ) (n : ℤ) : Track ℝ :=
  match t.model with
  | .box b => { t with model := .box (b.turned n) }
  | _ => t

variable {t : Track ℝ} {b : BoxTrack ℝ} (h : t.model = .box b) (n : ℤ)

include h

theorem turned_eq : t.turned n = { t with model := .box (b.turned n) } := by
  rw [turned, h]

theorem turned_zero : t.turned 0 = t := by
  have hmean (x : Vec 5 ℝ) : x + TurnRate.turns 5 0 = x := by
    ext i
    rw [Vec.add_apply, TurnRate.turns_apply, Int.cast_zero, zero_mul, ite_self, add_zero]
  have hsame : b.turned 0 = b := by
    rw [BoxTrack.turned, Estimate.addMean, Kalman.addMean, hmean]
  rw [turned_eq h, hsame, ← h]

/-- A track that is carried on loses the turns. -/
theorem predict?_turned (now : Time ℝ) : (t.turned n).predict? now = t.predict? now := by
  rw [turned_eq h, predict?, predict?, h]
  dsimp only [TrackModel.predict?]
  rw [b.predict?_turned, Option.map_map, Option.map_map, Option.map_map]
  congr 1
  funext b'
  show { t with model := .box (b'.turned n).limit } = { t with model := .box b'.limit }
  rw [BoxTrack.limit_turned]

theorem measure_turned {d : Detection ℝ} (htorn : ¬ b.Torn d) (j : ℤ) (now : Time ℝ)
    (ego : Isometry ℝ) : (t.turned j).measure (d.turned n) now ego = t.measure d now ego := by
  rw [turned_eq h, measure, measure, h]
  dsimp only [TrackModel.measure]
  rw [BoxTrack.measure_turned _ _ _ _ htorn]
  rfl

theorem exportAt?_turned (now : Time ℝ) :
    (t.turned n).exportAt? now = (t.exportAt? now).map (TrackedObject.turned · n) := by
  rw [turned_eq h, exportAt?_eq, exportAt?_eq, h]
  dsimp only [TrackModel.stateAt?]
  rw [b.stateAt?_turned]
  cases b.stateAt? now with
  | none => rfl
  | some report =>
    have hcov : (report.1.turned n).poseCov = report.1.poseCov := rfl
    simp only [Option.map_some, Option.bind_some, Prod.map, hcov]
    split <;> rfl

theorem scoreRow_turned (g : Gates ℝ) (batch : Batch ℝ) :
    Association.scoreRow g batch (t.turned n) = Association.scoreRow g batch t := by
  unfold Association.scoreRow
  rw [exportAt?_turned h]
  cases t.exportAt? batch.stamp with
  | none => rfl
  | some o =>
    have hscore : Association.pairScore g (o.turned n) = Association.pairScore g o := by
      funext d
      have hd := Association.pairScore_turned g o d n 0
      rwa [d.turned_zero] at hd
    simp only [Option.map_some, hscore]

omit h

/-- **How a heading is written down does not matter**, neither that of a track when it is carried
on, given a detection or scored, nor that of a detection. Detections whose heading is as far from
that of the track as it can be are left out of those that are given to it. What is behind it is
that a measured heading is folded next to the estimated one. -/
theorem wholeTurns_ok :
    (∀ (estimated measured : ℝ) (h : Heading), ∃ n : ℤ,
      TurnRate.unwrap estimated measured h = measured + n * TurnRate.period h ∧
      |TurnRate.unwrap estimated measured h - estimated| ≤ TurnRate.period h / 2) ∧
    ∀ (t : Track ℝ) (b : BoxTrack ℝ), t.model = .box b → ∀ n : ℤ,
      (∀ now : Time ℝ, (t.turned n).predict? now = t.predict? now) ∧
      (∀ (d : Detection ℝ) (now : Time ℝ) (ego : Isometry ℝ), ¬ b.Torn d →
        (t.turned n).measure d now ego = t.measure d now ego ∧
        t.measure (d.turned n) now ego = t.measure d now ego) ∧
      (∀ (g : Gates ℝ) (batch : Batch ℝ),
        Association.scoreRow g batch (t.turned n) = Association.scoreRow g batch t) ∧
      ∀ (g : Gates ℝ) (o : TrackedObject ℝ) (d : Detection ℝ),
        Association.pairScore g o (d.turned n) = Association.pairScore g o d := by
  refine ⟨TurnRate.unwrap_spec, fun t b h n => ⟨predict?_turned h n, ?_, scoreRow_turned h n, ?_⟩⟩
  · intro d now ego htorn
    constructor
    · have hboth := measure_turned h 0 htorn n now ego
      rwa [d.turned_zero] at hboth
    · have hboth := measure_turned h n htorn 0 now ego
      rwa [turned_zero h] at hboth
  · intro g o d
    have hboth := Association.pairScore_turned g o d 0 n
    rwa [o.turned_zero] at hboth

/-- A car that heads to the back left. -/
noncomputable def headingBack : Detection ℝ where
  existence := 1
  classes := [⟨.car, 1⟩]
  kinematics :=
    { pose := ⟨0, 0, 0, 3.0⟩
      poseCov := 1
      hasPoseCov := true
      heading := .available
      twist := ⟨1, 0, 0⟩
      hasTwist := true
      twistCov := 1
      hasTwistCov := true }
  shape := .box ⟨4.0, 2.0, 1⟩

/-- The car goes on as it is seen first, and its heading has been written down with a turn more. -/
theorem wholeTurns_ok_headingBack :
    let t : Track ℝ := .spawn ⟨0⟩ ⟨0⟩ headingBack .normalVehicle
    (t.turned 1).predict? ⟨1⟩ = t.predict? ⟨1⟩ ∧
      (t.turned 1).measure headingBack ⟨1⟩ .identity = t.measure headingBack ⟨1⟩ .identity ∧
      t.measure (headingBack.turned 1) ⟨1⟩ .identity = t.measure headingBack ⟨1⟩ .identity := by
  intro t
  let b : BoxTrack ℝ := .spawn ⟨0⟩ headingBack .normalVehicle
  have htorn : ¬ b.Torn headingBack := by
    rintro ⟨n, hn⟩
    have hzero : (3.0 : ℝ) - 3.0 = (n + 0.5) * TurnRate.period .available := hn
    rw [sub_self, eq_comm, mul_eq_zero_iff_right (TurnRate.period_pos _).ne'] at hzero
    have hodd : (2 * n + 1 : ℤ) = 0 := by
      have : (2 * n + 1 : ℝ) = 0 := by linarith
      exact_mod_cast this
    omega
  obtain ⟨hpredict, hmeasure, -⟩ := wholeTurns_ok.2 t b rfl 1
  exact ⟨hpredict ⟨1⟩, hmeasure headingBack ⟨1⟩ .identity htorn⟩

end Track

end TrackFusion
