import TrackFusion.Association.Assignment
import TrackFusion.Roster.Suppression

/-!
# Roster of tracks

All tracks that are alive, in the order in which they were started.

* `Roster.predict`, `update`, `spawn`: the steps for a batch whose detections have been paired with
  tracks; `absorb` is all three of them.
* `Roster.prune`: forgets old tracks and suppresses overlapping ones.
* `Roster.confirmedAt`, `tentativeAt`: what is published.
-/

namespace TrackFusion

structure Roster (α : Type) where
  settings : RosterSettings α
  kinds : KindTable
  tracks : List (Track α)
  ids : IdSupply

namespace Roster

variable {α : Type} [Scalar α]

/-- A roster without tracks, and the identities that they will have. -/
def empty (settings : RosterSettings α) (kinds : KindTable) (ids : IdStream := .counting) :
    Roster α where
  settings := settings
  kinds := kinds
  tracks := []
  ids := .initial ids

/-- Carries all tracks on to a time. One that cannot be carried on stays as it is. -/
def predict (r : Roster α) (now : Time α) : Roster α :=
  { r with tracks := r.tracks.map fun t => (t.predict? now).getD t }

/-- A track after a batch in which its detection has the index `j?`. -/
def updateTrack (b : Batch α) (ego : Isometry α) (j? : Option Nat) (t : Track α) : Track α :=
  match j?.bind fun j => b.objects[j]? with
  | some d => (t.measure d b.stamp ego).1
  | none => t.miss

/-- Hands every track its detection, or a miss if it has none. -/
def update (r : Roster α) (b : Batch α) (ego : Isometry α) (direct : IndexMap) : Roster α :=
  { r with tracks := r.tracks.mapIdx fun i t => updateTrack b ego (direct.get? i) t }

/-- The detections without a track. -/
def unmatched (b : Batch α) (reverse : IndexMap) : List (Detection α) :=
  b.objects.zipIdx.filterMap fun (d, j) => if reverse.contains j then none else some d

/-- Starts a track at a detection. -/
def start (t : Time α) (r : Roster α) (d : Detection α) : Roster α :=
  let (id, ids) := r.ids.fresh
  { r with tracks := r.tracks ++ [.spawn id t d (r.kinds.kind d.label)], ids := ids }

/-- Starts a track at every detection that has none. -/
def spawn (r : Roster α) (b : Batch α) (reverse : IndexMap) : Roster α :=
  (unmatched b reverse).foldl (start b.stamp) r

/-- All that a batch does to the tracks before they are pruned. -/
def absorb (r : Roster α) (b : Batch α) (ego : Isometry α) (p : Pairing) : Roster α :=
  ((r.predict b.stamp).update b ego p.direct).spawn b p.reverse

/-- Forgets the tracks without a recent detection. -/
def expire (r : Roster α) (now : Time α) : Roster α :=
  { r with tracks := r.tracks.filter fun t => decide (t.elapsed now ≤ r.settings.maxElapsed) }

/-- Forgets the tracks that yield to another one in the same place. -/
def suppress (r : Roster α) (now : Time α) : Roster α :=
  { r with
    tracks := (r.settings.survivors (r.tracks.map (Sighting.ofTrack now))).map Sighting.track }

def prune (r : Roster α) (now : Time α) : Roster α := (r.expire now).suppress now

/-- The tracks that have had enough detections, as they are published. -/
def confirmedAt (r : Roster α) (now : Time α) : List (TrackedObject α) :=
  (r.tracks.filter fun t => t.isConfirmed r.settings.confirmAfter).filterMap fun t =>
    t.exportAt? now

/-- The other tracks, as they are published. -/
def tentativeAt (r : Roster α) (now : Time α) : List (TrackedObject α) :=
  (r.tracks.filter fun t => !t.isConfirmed r.settings.confirmAfter).filterMap fun t =>
    t.exportAt? now

end Roster

end TrackFusion
