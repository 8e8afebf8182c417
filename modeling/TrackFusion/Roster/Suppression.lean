import TrackFusion.Object.Overlap
import TrackFusion.Roster.Settings
import TrackFusion.Track.Basic

/-!
# Suppression of overlapping tracks

Two tracks of one object must not both live. Each track is compared with those behind it that are
still left, and of two that overlap one yields.

* `RosterSettings.collide`: whether two published tracks overlap too much.
* `Sighting.yields`: whether a track yields to one behind it.
* `RosterSettings.survivors`: the tracks that are left.
-/

namespace TrackFusion

/-- A track with what it would publish. -/
structure Sighting (α : Type) where
  track : Track α
  object? : Option (TrackedObject α)

variable {α : Type} [Scalar α]

namespace Sighting

def ofTrack (now : Time α) (t : Track α) : Sighting α := ⟨t, t.exportAt? now⟩

def isUnknown (s : Sighting α) : Bool := s.track.label = .unknown

/-- Whether a track yields to one behind it that it overlaps. A track of unknown class yields to one
of a known class, and else the one with fewer detections; if both have as many, the one behind
yields. -/
def yields (a b : Sighting α) : Bool :=
  if a.isUnknown = b.isUnknown then decide (a.track.hits < b.track.hits) else a.isUnknown

end Sighting

namespace RosterSettings

/-- Footprints with a smaller union do not overlap. -/
def minUnionArea : α := 1e-2

/-- How much two tracks may overlap. -/
def overlapBound (s : RosterSettings α) (a b : Sighting α) : α :=
  if a.isUnknown || b.isUnknown then s.minOverlapUnknown else s.minOverlap

/-- Whether two tracks are near each other and overlap too much. A track that has nothing to publish
is in nobody's way. -/
def collide (s : RosterSettings α) (a b : Sighting α) : Bool :=
  match a.object?, b.object? with
  | some o, some p =>
    let here := o.kinematics.pose
    let there := p.kinematics.pose
    !decide (s.mergeDistance < here.distance there) &&
      decide (s.overlapBound a b < overlap here o.shape there p.shape minUnionArea)
  | _, _ => false

/-- Compares a track with those behind it: whether it is left, and which of them are. Once the track
has yielded, the others are left alone. -/
def confront (s : RosterSettings α) (a : Sighting α) : List (Sighting α) → Bool × List (Sighting α)
  | [] => (true, [])
  | b :: rest =>
    if s.collide a b then
      if a.yields b then (false, b :: rest) else s.confront a rest
    else
      let (left, rest) := s.confront a rest
      (left, b :: rest)

theorem length_confront_le (s : RosterSettings α) (a : Sighting α) (rest : List (Sighting α)) :
    (s.confront a rest).2.length ≤ rest.length := by
  induction rest with
  | nil => simp [confront]
  | cons b rest ih =>
    by_cases h : s.collide a b = true <;> by_cases h' : a.yields b = true <;>
      simp [confront, h, h'] <;> omega

/-- The tracks that are left after each one has been compared with those behind it. -/
def survivors (s : RosterSettings α) : List (Sighting α) → List (Sighting α)
  | [] => []
  | a :: rest =>
    let r := s.confront a rest
    if r.1 then a :: s.survivors r.2 else s.survivors r.2
  termination_by l => l.length
  decreasing_by
    all_goals
      have := length_confront_le s a rest
      simp only [List.length_cons]
      omega

end RosterSettings

end TrackFusion
