import TrackFusion.Linear.Matrix

/-!
# Frames of reference

A change of frame is a rotation followed by a shift.

* `Rotation`: a rotation of space as a unit quaternion, with its matrix and its angles.
* `Isometry`: a change of frame, with its inverse.
-/

namespace TrackFusion

/-- A point of space. -/
structure Point3 (α : Type) where
  x : α
  y : α
  z : α
  deriving BEq, DecidableEq

/-- The rotation of the unit quaternion `w + i 𝐢 + j 𝐣 + k 𝐤`. -/
structure Rotation (α : Type) where
  w : α
  i : α
  j : α
  k : α
  deriving BEq, DecidableEq

/-- Turns by `rotation`, then shifts by `origin`, which is where the origin goes. -/
structure Isometry (α : Type) where
  rotation : Rotation α
  origin : Point3 α
  deriving BEq, DecidableEq

variable {α : Type} [Scalar α]

namespace Point3

instance : Add (Point3 α) := ⟨fun p q => ⟨p.x + q.x, p.y + q.y, p.z + q.z⟩⟩
instance : Neg (Point3 α) := ⟨fun p => ⟨-p.x, -p.y, -p.z⟩⟩

def zero : Point3 α := ⟨0, 0, 0⟩

def scale (p : Point3 α) (c : α) : Point3 α := ⟨p.x * c, p.y * c, p.z * c⟩

/-- The vector product. -/
def cross (p q : Point3 α) : Point3 α :=
  ⟨p.y * q.z - p.z * q.y, p.z * q.x - p.x * q.z, p.x * q.y - p.y * q.x⟩

end Point3

namespace Rotation

open Place

def identity : Rotation α := ⟨1, 0, 0, 0⟩

/-- Turns by `roll` around the first axis, then by `pitch` around the second and by `yaw` around the
third. -/
def ofAngles (roll pitch yaw : α) : Rotation α :=
  let sr := Scalar.sin (roll * 0.5)
  let cr := Scalar.cos (roll * 0.5)
  let sp := Scalar.sin (pitch * 0.5)
  let cp := Scalar.cos (pitch * 0.5)
  let sy := Scalar.sin (yaw * 0.5)
  let cy := Scalar.cos (yaw * 0.5)
  ⟨cr * cp * cy + sr * sp * sy, sr * cp * cy - cr * sp * sy,
    cr * sp * cy + sr * cp * sy, cr * cp * sy - sr * sp * cy⟩

/-- The rotation that undoes this one. -/
def inverse (q : Rotation α) : Rotation α := ⟨q.w, -q.i, -q.j, -q.k⟩

def apply (q : Rotation α) (p : Point3 α) : Point3 α :=
  let axis : Point3 α := ⟨q.i, q.j, q.k⟩
  let t := (axis.cross p).scale 2.0
  t.scale q.w + axis.cross t + p

def matrix (q : Rotation α) : Mat 3 3 α :=
  let ww := q.w * q.w
  let ii := q.i * q.i
  let jj := q.j * q.j
  let kk := q.k * q.k
  let ij := q.i * q.j * 2.0
  let wk := q.w * q.k * 2.0
  let wj := q.w * q.j * 2.0
  let ik := q.i * q.k * 2.0
  let jk := q.j * q.k * 2.0
  let wi := q.w * q.i * 2.0
  .ofRows #v[
    #v[ww + ii - jj - kk, ij - wk, wj + ik],
    #v[wk + ij, ww - ii + jj - kk, jk - wi],
    #v[ik - wj, wi + jk, ww - ii - jj + kk]]

/-- Roll, pitch and yaw of the rotation. If the first axis points straight up or down, roll and yaw
cannot be told apart and all of it counts as roll. -/
def angles (q : Rotation α) : Point3 α :=
  let r := q.matrix
  let up := r third first
  if Scalar.abs up < 1 then
    let pitch := -Scalar.arcsin up
    let c := Scalar.cos pitch
    ⟨Scalar.arctan (r third second / c) (r third third / c), pitch,
      Scalar.arctan (r second first / c) (r first first / c)⟩
  else if up ≤ -1 then ⟨Scalar.arctan (r first second) (r first third), Scalar.pi / 2.0, 0⟩
  else ⟨Scalar.arctan (-(r first second)) (-(r first third)), -(Scalar.pi / 2.0), 0⟩

end Rotation

namespace Isometry

def identity : Isometry α := ⟨.identity, .zero⟩

def apply (m : Isometry α) (p : Point3 α) : Point3 α := m.rotation.apply p + m.origin

def inverse (m : Isometry α) : Isometry α :=
  ⟨m.rotation.inverse, m.rotation.inverse.apply (-m.origin)⟩

end Isometry

end TrackFusion
