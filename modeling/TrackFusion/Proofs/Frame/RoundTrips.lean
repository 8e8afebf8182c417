import TrackFusion.Proofs.Angles
import TrackFusion.Proofs.Frame.Rotations
import TrackFusion.Frame.Lookup

/-!
# There and back

A batch that is moved to another frame and back to its own is what it was, up to the way its
headings are written down.

* `Detection.SeenAgain`: what a change of frame leaves as it is.
* `Detection.seenAgain_moved`, `moved_moved`: one step, and a step back.
* `FrameTable.KnownOneWay`: a pair of frames that is entered in one direction only.
* `Batch.inFrame?_back`: the round trip of a batch.
-/

namespace TrackFusion

open Real

/-! ### Detections -/

/-- The same detection with another heading. -/
def Detection.facing {α : Type} (d : Detection α) (yaw : α) : Detection α :=
  { d with kinematics := { d.kinematics with pose := { d.kinematics.pose with yaw := yaw } } }

/-- The variances of the position in a covariance of all axes, and how they go together. -/
def Mat.linear {α : Type} (c : Mat 6 6 α) : Mat 3 3 α := c.restrict (Fin.castAdd 3)

/-- The variances of the orientation. -/
def Mat.angular {α : Type} (c : Mat 6 6 α) : Mat 3 3 α := c.restrict (Fin.natAdd 3)

/-- The two detections are of one object, seen from two frames. Only the pose and its covariance
have changed, and the covariance is as much one as before, with as much variance of either kind. -/
structure Detection.SeenAgain (d d' : Detection ℝ) : Prop where
  rest : d' = { d with
    kinematics := { d.kinematics with
      pose := d'.kinematics.pose
      poseCov := d'.kinematics.poseCov } }
  symmetric : d.kinematics.poseCov.transpose = d.kinematics.poseCov →
    d'.kinematics.poseCov.transpose = d'.kinematics.poseCov
  covariance : d.kinematics.poseCov.IsCovariance → d'.kinematics.poseCov.IsCovariance
  linear : d'.kinematics.poseCov.linear.toMatrix.trace = d.kinematics.poseCov.linear.toMatrix.trace
  angular : d'.kinematics.poseCov.angular.toMatrix.trace =
    d.kinematics.poseCov.angular.toMatrix.trace

namespace Isometry

variable {m : Isometry ℝ}

/-- The turn of positions and that of orientations together. -/
noncomputable def turn (m : Isometry ℝ) : Mat 6 6 ℝ :=
  m.rotation.matrix.blockDiagonal m.rotation.matrix

theorem inverse_turn_mul (h : m.rotation.IsUnit) : m.inverse.turn * m.turn = 1 := by
  have hinverse : m.inverse.rotation.matrix = m.rotation.matrix.transpose :=
    m.rotation.matrix_inverse
  rw [turn, turn, Mat.blockDiagonal_mul, hinverse, h.transpose_mul_matrix, Mat.blockDiagonal_one]

/-- The heading of an object that is moved there and back. -/
noncomputable def headingBack (m : Isometry ℝ) (yaw : ℝ) : ℝ :=
  Angle.normalize (Angle.normalize (yaw + m.rotation.angles.z) + m.inverse.rotation.angles.z)

/-- Around the vertical an object turns back by as much as it has turned. -/
theorem headingBack_eq (h : m.rotation.AboutVertical) (yaw : ℝ) :
    m.headingBack yaw = Angle.normalize yaw := by
  obtain ⟨n, hn⟩ := h.exists_turns
  obtain ⟨k, hk⟩ := Angle.normalize_eq (yaw + m.rotation.angles.z)
  have hinverse : m.inverse.rotation = m.rotation.inverse := rfl
  have hback : Angle.normalize (yaw + m.rotation.angles.z) + m.rotation.inverse.angles.z =
      yaw + (n - k : ℤ) * (2 * π) := by
    rw [hk, Int.cast_sub]
    linear_combination hn
  rw [headingBack, hinverse, hback, Angle.normalize_add_turns]

end Isometry

namespace Detection

variable {m : Isometry ℝ} (d : Detection ℝ)

theorem moved_poseCov :
    (d.moved m).kinematics.poseCov = m.turn.congruence d.kinematics.poseCov := rfl

/-- **What a change of frame leaves as it is.** -/
theorem seenAgain_moved (h : m.rotation.IsUnit) : d.SeenAgain (d.moved m) where
  rest := rfl
  symmetric := Mat.transpose_congruence m.turn
  covariance hc := hc.congruence m.turn
  linear := by
    rw [moved_poseCov, Mat.linear, Isometry.turn, Mat.restrict_congruence_left,
      Mat.trace_congruence h.transpose_mul_matrix, Mat.linear]
  angular := by
    rw [moved_poseCov, Mat.angular, Isometry.turn, Mat.restrict_congruence_right,
      Mat.trace_congruence h.transpose_mul_matrix, Mat.angular]

/-- **A step and a step back** restore all but the heading. -/
theorem moved_moved (h : m.rotation.IsUnit) :
    (d.moved m).moved m.inverse = d.facing (m.headingBack d.kinematics.pose.yaw) := by
  have hpoint := Isometry.inverse_apply_apply h
    ⟨d.kinematics.pose.x, d.kinematics.pose.y, d.kinematics.pose.z⟩
  have hpose : ((d.moved m).moved m.inverse).kinematics.pose =
      { d.kinematics.pose with yaw := m.headingBack d.kinematics.pose.yaw } :=
    congrArg (fun p : Point3 ℝ => (⟨p.x, p.y, p.z, m.headingBack d.kinematics.pose.yaw⟩ : Pose ℝ))
      hpoint
  have hcov : ((d.moved m).moved m.inverse).kinematics.poseCov = d.kinematics.poseCov := by
    rw [moved_poseCov, moved_poseCov, Mat.congruence_congruence, Isometry.inverse_turn_mul h,
      Mat.one_congruence]
  have hrest : (d.moved m).moved m.inverse = { d with
      kinematics := { d.kinematics with
        pose := ((d.moved m).moved m.inverse).kinematics.pose
        poseCov := ((d.moved m).moved m.inverse).kinematics.poseCov } } := rfl
  rw [hrest, hpose, hcov, facing]

end Detection

/-! ### Batches -/

namespace FrameTable

/-- The table has `m` for the way from the first frame to the second, but an entry in one direction
only. -/
def KnownOneWay (t : FrameTable ℝ) (source target : String) (m : Isometry ℝ) : Prop :=
  t.entries.lookup (source, target) = some m ∧ t.entries.lookup (target, source) = none ∨
    ∃ back, t.entries.lookup (source, target) = none ∧
      t.entries.lookup (target, source) = some back ∧ m = back.inverse

namespace KnownOneWay

variable {t : FrameTable ℝ} {source target : String} {m : Isometry ℝ}

theorem ne (h : t.KnownOneWay source target m) : source ≠ target := by
  rintro rfl
  obtain ⟨hone, hother⟩ | ⟨back, hone, hother, -⟩ := h <;> simp [hone] at hother

theorem lookup_eq (h : t.KnownOneWay source target m) (now : Time ℝ) :
    t.lookup source target now = some m := by
  rw [lookup, if_neg h.ne]
  obtain ⟨hone, -⟩ | ⟨back, hone, hother, rfl⟩ := h
  · rw [hone]
  · rw [hone, hother]
    rfl

theorem symm (h : t.KnownOneWay source target m) (hunit : m.rotation.IsUnit) :
    t.KnownOneWay target source m.inverse := by
  obtain ⟨hone, hother⟩ | ⟨back, hone, hother, rfl⟩ := h
  · exact .inr ⟨m, hother, hone, rfl⟩
  · have hback : back.rotation.IsUnit := by
      rw [← back.rotation.inverse_inverse]
      exact hunit.inverse
    rw [Isometry.inverse_inverse hback]
    exact .inl ⟨hother, hone⟩

end KnownOneWay

end FrameTable

namespace Batch

/-- The two batches are of the same objects, seen from two frames. -/
structure SeenAgain (b b' : Batch ℝ) (target : String) : Prop where
  rest : b' = { b with frame := target, objects := b'.objects }
  objects : List.Forall₂ Detection.SeenAgain b.objects b'.objects

/-- The batch with all that is in it moved to another frame. -/
noncomputable def moved (b : Batch ℝ) (m : Isometry ℝ) (target : String) : Batch ℝ :=
  { b with frame := target, objects := b.objects.map (Detection.moved m) }

variable {m : Isometry ℝ} {target : String}

theorem inFrame?_eq_some {t : FrameTable ℝ} {b : Batch ℝ} (h : t.KnownOneWay b.frame target m) :
    b.inFrame? target t.lookup = some (b.moved m target) := by
  rw [inFrame?, if_neg h.ne, h.lookup_eq, Option.map_some, moved]

theorem seenAgain_moved (h : m.rotation.IsUnit) (b : Batch ℝ) :
    b.SeenAgain (b.moved m target) target where
  rest := rfl
  objects := by
    rw [moved, List.forall₂_map_right_iff, List.forall₂_same]
    exact fun d _ => d.seenAgain_moved h

/-- The same batch with its headings changed. -/
def facing (b : Batch ℝ) (heading : ℝ → ℝ) : Batch ℝ :=
  { b with objects := b.objects.map fun d => d.facing (heading d.kinematics.pose.yaw) }

theorem moved_moved (h : m.rotation.IsUnit) (b : Batch ℝ) :
    (b.moved m target).moved m.inverse b.frame = b.facing m.headingBack := by
  have hobjects : (b.objects.map (Detection.moved m)).map (Detection.moved m.inverse) =
      b.objects.map fun d => d.facing (m.headingBack d.kinematics.pose.yaw) := by
    rw [List.map_map]
    exact List.map_congr_left fun d _ => d.moved_moved h
  rw [moved, moved, hobjects, facing]

/-- **A batch that is moved to another frame and back** is restored, but for the way its headings
are written down, and for the headings themselves if the vertical is tilted. Either step leaves
alone what a change of frame has no business with. -/
theorem inFrame?_back (b : Batch ℝ) (target : String) (t : FrameTable ℝ) (m : Isometry ℝ)
    (hknown : t.KnownOneWay b.frame target m) (hunit : m.rotation.IsUnit) :
    ∃ there : Batch ℝ, ∃ heading : ℝ → ℝ,
      b.inFrame? target t.lookup = some there ∧ b.SeenAgain there target ∧
      there.inFrame? b.frame t.lookup = some (b.facing heading) ∧
      there.SeenAgain (b.facing heading) b.frame ∧
      (m.rotation.AboutVertical → ∀ yaw,
        Angle.Alike yaw (heading yaw) ∧ heading yaw ∈ Set.Ioc (-π) π) := by
  refine ⟨b.moved m target, m.headingBack, inFrame?_eq_some hknown, seenAgain_moved hunit b, ?_, ?_,
    fun hvertical yaw => ?_⟩
  · rw [← moved_moved hunit b]
    exact inFrame?_eq_some (hknown.symm hunit)
  · rw [← moved_moved hunit b]
    exact seenAgain_moved hunit.inverse (b.moved m target)
  · rw [Isometry.headingBack_eq hvertical]
    exact ⟨Angle.alike_normalize yaw, Angle.normalize_mem yaw⟩

/-- A car ahead of the vehicle, as the vehicle sees it. -/
noncomputable def carAhead : Batch ℝ where
  stamp := ⟨1⟩
  frame := "base_link"
  channel := 0
  objects := [{
    existence := 1
    classes := [⟨.car, 1⟩]
    kinematics :=
      { pose := ⟨1, 0, 0.5, 0⟩
        poseCov := .diagonal (.ofFn fun i => i)
        hasPoseCov := true
        heading := .available
        twist := ⟨2.0, 0, 0⟩
        hasTwist := true
        twistCov := 1
        hasTwistCov := true }
    shape := .box ⟨4.0, 2.0, 1.5⟩ }]

/-- The vehicle has turned half around, and the car is seen from the map and then as before. -/
theorem inFrame?_back_carAhead :
    let turnedAround : Isometry ℝ := ⟨⟨0, 0, 0, 1⟩, ⟨10, 5, 0⟩⟩
    let t := FrameTable.empty.insert "base_link" "map" turnedAround
    ∃ there, carAhead.inFrame? "map" t.lookup = some there ∧
      there.inFrame? "base_link" t.lookup = some carAhead := by
  intro turnedAround t
  have hknown : t.KnownOneWay "base_link" "map" turnedAround := by
    refine .inl ⟨?_, ?_⟩
    · simp [t, FrameTable.insert, FrameTable.empty]
    · simp [t, FrameTable.insert, FrameTable.empty]
  have hunit : turnedAround.rotation.IsUnit := by
    show (0 * 0 + 0 * 0 + 0 * 0 + 1 * 1 : ℝ) = 1
    norm_num
  obtain ⟨there, heading, hthere, -, hback, -, hheading⟩ :=
    inFrame?_back carAhead "map" t turnedAround hknown hunit
  obtain ⟨halike, hmem⟩ := hheading ⟨rfl, rfl⟩ 0
  have hzero : heading 0 = 0 := (halike.eq_of_mem ⟨by simp [pi_pos], pi_pos.le⟩ hmem).symm
  have hsame : carAhead.facing heading = carAhead := by
    simp [facing, carAhead, Detection.facing, hzero]
  rw [hsame] at hback
  exact ⟨there, hthere, hback⟩

end Batch

end TrackFusion
