import TrackFusion.Association.Greedy
import TrackFusion.Association.Optimal
import TrackFusion.Association.Settings
import TrackFusion.Object.Overlap
import TrackFusion.Track.Basic

/-!
# Association

Which detection of a batch belongs to which track.

* `Association.pairScore`: how well a track and a detection fit, zero if they fail a gate.
* `Association.scores`: the table of all pairs.
* `Association.assign`: the pairs that are chosen from such a table.
-/

namespace TrackFusion

/-- Gates and method of the association. -/
structure Association (α : Type) where
  gates : Gates α
  solver : Solver

namespace Association

variable {α : Type} [Scalar α]

def ofSettings (s : AssociationSettings α) : Except Error (Association α) :=
  (Gates.ofSettings s).map fun g => ⟨g, s.solver⟩

/-- Lower scores are no match. -/
def minScore : α := 0.01

/-- Footprints with a smaller union do not overlap. -/
def minUnionArea : α := 1e-2

/-- Whether the headings of a track and a detection are near enough. -/
def headingFits (maxRad : α) (track detection : Pose α) : Bool :=
  if Scalar.abs maxRad < Scalar.pi then
    !decide (maxRad < Scalar.abs (Angle.difference detection.yaw track.yaw false))
  else true

/-- How well a track and a detection fit: one if they are in the same place, falling with their
distance, and zero if they fail a gate. -/
def pairScore (g : Gates α) (track : TrackedObject α) (d : Detection α) : α :=
  let i := track.label.index
  let j := d.label.index
  let here := track.kinematics.pose
  let there := d.kinematics.pose
  let maxDist := g.maxDist i j
  let dist := here.distance there
  let area := d.shape.area
  if !g.canAssign i j then 0
  else if maxDist < dist then 0
  else if area < g.minArea i j ∨ g.maxArea i j < area then 0
  else if !headingFits (g.maxRad i j) here there then 0
  else if overlap here track.shape there d.shape minUnionArea < g.minOverlap i j then 0
  else
    let score := (maxDist - Scalar.min dist maxDist) / maxDist
    if score < minScore then 0 else score

/-- The row of a track in the table of scores. A track that has nothing to report fits nothing. -/
def scoreRow (g : Gates α) (b : Batch α) (t : Track α) : Vector α b.objects.length :=
  match t.exportAt? b.stamp with
  | none => Vector.ofFn fun _ => 0
  | some o =>
    let row := b.objects.map (pairScore g o)
    ⟨row.toArray, by simp [row]⟩

/-- The score of every track (rows) with every detection (columns), at the time of the batch. -/
def scores (a : Association α) (b : Batch α) (tracks : List (Track α)) :
    Mat tracks.length b.objects.length α :=
  let rows := tracks.map (scoreRow a.gates b)
  .ofRows ⟨rows.toArray, by simp [rows]⟩

/-- Total cost that tracks with a higher index are charged, to break ties. -/
def tieBreakTotal : α := 1e-9

/-- The costs that an optimal assignment minimises: what a score falls short of one, and a little
more for later tracks. A score that is not finite is none. -/
def costs {m n : Nat} (score : Mat m n α) : Mat m n α :=
  let rows : α := (Nat.max m 1 : Nat)
  let step := tieBreakTotal / (rows * rows)
  .ofFn fun i j =>
    let s := score i j
    let s := if Scalar.isFinite s then s else 0
    1 - s + (i.val : α) * step

/-- The pairs of an assignment that score well enough. -/
def pairing {m n : Nat} (score : Mat m n α) (a : Assignment m n α) : Pairing :=
  a.pairs.foldl
    (fun p (i, j) => if score i j < minScore then p else p.insert i.val j.val) .empty

/-- The pairs of tracks and detections that belong together. -/
def assign {m n : Nat} (solver : Solver) (score : Mat m n α) : Except Error Pairing :=
  match solver with
  | .greedy => .ok (pairing score (bestFirst score minScore))
  | .optimal => (minimalCost (costs score)).map (pairing score)

end Association

end TrackFusion
