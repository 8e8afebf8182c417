import TrackFusion.Frame.Isometry
import TrackFusion.Geometry.Angle
import TrackFusion.Object.Detection

/-!
# Changing the frame of a batch

* `FrameLookup`: where one frame is in another at some time, if that is known.
* `FrameTable`: frames that do not move against each other.
* `Batch.inFrame?`: the same batch as seen in another frame.
-/

namespace TrackFusion

/-- The isometry that takes coordinates in the source frame to coordinates in the target frame at a
time, if it is known. -/
abbrev FrameLookup (α : Type) := (source target : String) → Time α → Option (Isometry α)

/-- Known pairs of source and target frame with their isometry, the latest first. -/
structure FrameTable (α : Type) where
  entries : List ((String × String) × Isometry α)

variable {α : Type} [Scalar α]

namespace FrameTable

def empty : FrameTable α := ⟨[]⟩

/-- Adds the isometry from `source` to `target`. It replaces an earlier one. -/
def insert (t : FrameTable α) (source target : String) (m : Isometry α) : FrameTable α :=
  ⟨((source, target), m) :: t.entries⟩

/-- A frame is in its own place, and a pair is also known the other way round. -/
def lookup (t : FrameTable α) : FrameLookup α := fun source target _ =>
  if source = target then some .identity
  else
    match t.entries.lookup (source, target) with
    | some m => some m
    | none => (t.entries.lookup (target, source)).map Isometry.inverse

end FrameTable

/-- A detection seen through a change of frame. The pose and its covariance turn; the twist belongs
to the object and stays. -/
def Detection.moved (m : Isometry α) (d : Detection α) : Detection α :=
  let k := d.kinematics
  let p := m.apply ⟨k.pose.x, k.pose.y, k.pose.z⟩
  let yaw := Angle.normalize (k.pose.yaw + m.rotation.angles.z)
  let turn : Mat 6 6 α := m.rotation.matrix.blockDiagonal m.rotation.matrix
  { d with
    kinematics := { k with
      pose := ⟨p.x, p.y, p.z, yaw⟩
      poseCov := turn.congruence k.poseCov } }

/-- The batch in another frame, unless the way there is not known. -/
def Batch.inFrame? (b : Batch α) (target : String) (frames : FrameLookup α) : Option (Batch α) :=
  if b.frame = target then some b
  else
    (frames b.frame target b.stamp).map fun m =>
      { b with frame := target, objects := b.objects.map (Detection.moved m) }

end TrackFusion
