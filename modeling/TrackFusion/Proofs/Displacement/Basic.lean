import TrackFusion.Proofs.Exact
import TrackFusion.Frame.Isometry
import TrackFusion.Object.Detection

/-!
# Displacements

A displacement moves all that happens to another time and another place, where tracks have other
names. What is said about displacements is said as equations: what is computed of displaced things
is the displacement of what is computed of the things themselves, or is the same if it has no time,
no place and no name.

* `Displacement`: a way in time and space, and the names at the other end.
* `Time.displace`, `Point.displace`, `Pose.displace` and so on: what it does to each type.
* `Batch.transport`: the same for a batch in any frame; only what is seen in the world moves.
* `IdStream.Renamed`: the streams that tracks have their names from.
-/

namespace TrackFusion

/-- A way in time, one in the world, and other names for the tracks. Nothing is asked of the names,
as nobody compares them. -/
structure Displacement (α : Type) where
  time : α
  x : α
  y : α
  z : α
  name : TrackId → TrackId

section displace

variable {α : Type} [Scalar α] (δ : Displacement α)

def Time.displace (t : Time α) : Time α := t + δ.time

def Point.displace (p : Point α) : Point α := ⟨p.x + δ.x, p.y + δ.y⟩

def Point3.displace (p : Point3 α) : Point3 α := ⟨p.x + δ.x, p.y + δ.y, p.z + δ.z⟩

def Pose.displace (p : Pose α) : Pose α := ⟨p.x + δ.x, p.y + δ.y, p.z + δ.z, p.yaw⟩

/-- The isometry to the displaced world. -/
def Isometry.displace (m : Isometry α) : Isometry α := { m with origin := m.origin.displace δ }

def Kinematics.displace (k : Kinematics α) : Kinematics α := { k with pose := k.pose.displace δ }

def Detection.displace (d : Detection α) : Detection α :=
  { d with kinematics := d.kinematics.displace δ }

/-- A batch that has been seen in the world. -/
def Batch.displace (b : Batch α) : Batch α :=
  { b with stamp := b.stamp.displace δ, objects := b.objects.map (Detection.displace δ) }

/-- A batch in any frame. Its detections are where they were in their frame, unless that is the
world. -/
def Batch.transport (world : String) (b : Batch α) : Batch α :=
  if b.frame = world then b.displace δ else { b with stamp := b.stamp.displace δ }

def TrackedObject.displace (o : TrackedObject α) : TrackedObject α :=
  { o with id := δ.name o.id, kinematics := o.kinematics.displace δ }

def Message.displace (m : Message α) : Message α :=
  { m with stamp := m.stamp.displace δ, objects := m.objects.map (TrackedObject.displace δ) }

/-- The other stream has the other names, in their order. -/
def IdStream.Renamed (ids ids' : IdStream) : Prop := ∀ k, ids'.nth k = δ.name (ids.nth k)

omit [Scalar α] in
/-- The names of one stream can be exchanged for those of any other one. -/
theorem IdStream.exists_renamed (ids ids' : IdStream) :
    ∃ name, ids.Renamed { δ with name := name } ids' := by
  refine ⟨Function.extend ids.nth ids'.nth id, fun k => ?_⟩
  have hinj : Function.Injective ids.nth := fun _ _ => ids.nth_inj
  exact (hinj.extend_apply ids'.nth id k).symm

end displace

variable {α : Type} [ExactScalar α] (δ : Displacement α)

/-! ### Time -/

namespace Time

@[simp] theorem displace_sub_displace (s t : Time α) : (s.displace δ - t.displace δ : α) = s - t :=
  add_sub_add_right_eq_sub s.seconds t.seconds δ.time

@[simp] theorem displace_sub (t : Time α) (d : α) : t.displace δ - d = (t - d).displace δ := by
  show Time.mk (t.seconds + δ.time - d) = Time.mk (t.seconds - d + δ.time)
  rw [add_sub_right_comm]

@[simp] theorem displace_lt_displace {s t : Time α} : s.displace δ < t.displace δ ↔ s < t :=
  add_lt_add_iff_right δ.time

@[simp] theorem displace_le_displace {s t : Time α} : s.displace δ ≤ t.displace δ ↔ s ≤ t :=
  add_le_add_iff_right δ.time

@[simp] theorem later_displace (s t : Time α) :
    (s.displace δ).later (t.displace δ) = (s.later t).displace δ := by
  simp only [later, displace_lt_displace]
  split <;> rfl

end Time

theorem compare_add_right (a b c : α) : compare (a + c) (b + c) = compare a b := by
  rcases lt_trichotomy a b with h | rfl | h
  · rw [compare_lt_iff_lt.2 h, compare_lt_iff_lt.2 (add_lt_add_left h c)]
  · rw [compare_eq_iff_eq.2 rfl, compare_eq_iff_eq.2 rfl]
  · rw [compare_gt_iff_gt.2 h, compare_gt_iff_gt.2 (add_lt_add_left h c)]

@[simp] theorem Time.order_displace (s t : Time α) :
    Scalar.order (s.displace δ).seconds (t.displace δ).seconds =
      Scalar.order s.seconds t.seconds := by
  rw [ExactScalar.order_eq, ExactScalar.order_eq]
  exact compare_add_right s.seconds t.seconds δ.time

/-! ### Poses -/

namespace Pose

@[simp] theorem displace_z (p : Pose α) : (p.displace δ).z = p.z + δ.z := rfl

@[simp] theorem displace_yaw (p : Pose α) : (p.displace δ).yaw = p.yaw := rfl

@[simp] theorem displace_point (p : Pose α) : (p.displace δ).point = p.point.displace δ := rfl

@[simp] theorem displace_distance (p q : Pose α) :
    (p.displace δ).distance (q.displace δ) = p.distance q := by
  simp [distance, displace]

theorem displace_shift (p : Pose α) (d : Point α) :
    (p.displace δ).shift d = (p.shift d).displace δ := by
  simp [shift, displace, add_right_comm]

end Pose

@[simp] theorem Point3.add_displace (p q : Point3 α) : p + q.displace δ = (p + q).displace δ := by
  show Point3.mk (p.x + (q.x + δ.x)) (p.y + (q.y + δ.y)) (p.z + (q.z + δ.z)) =
    ⟨p.x + q.x + δ.x, p.y + q.y + δ.y, p.z + q.z + δ.z⟩
  rw [add_assoc, add_assoc, add_assoc]

@[simp] theorem Isometry.displace_apply (m : Isometry α) (p : Point3 α) :
    (m.displace δ).apply p = (m.apply p).displace δ :=
  Point3.add_displace δ _ _

/-! ### Objects -/

@[simp] theorem Kinematics.displace_pose (k : Kinematics α) :
    (k.displace δ).pose = k.pose.displace δ := rfl

namespace Detection

variable (d : Detection α)

@[simp] theorem displace_kinematics :
    (d.displace δ).kinematics = d.kinematics.displace δ := rfl

@[simp] theorem displace_shape : (d.displace δ).shape = d.shape := rfl

@[simp] theorem displace_label : (d.displace δ).label = d.label := rfl

end Detection

namespace TrackedObject

variable (o : TrackedObject α)

@[simp] theorem displace_kinematics :
    (o.displace δ).kinematics = o.kinematics.displace δ := rfl

@[simp] theorem displace_shape : (o.displace δ).shape = o.shape := rfl

@[simp] theorem displace_label : (o.displace δ).label = o.label := rfl

end TrackedObject

/-! ### Batches -/

namespace Batch

variable (world : String) (b : Batch α)

@[simp] theorem displace_stamp : (b.displace δ).stamp = b.stamp.displace δ := rfl

@[simp] theorem displace_objects :
    (b.displace δ).objects = b.objects.map (Detection.displace δ) := rfl

@[simp] theorem transport_stamp : (b.transport δ world).stamp = b.stamp.displace δ := by
  rw [transport]
  split <;> rfl

end Batch

end TrackFusion
