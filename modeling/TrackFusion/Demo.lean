import TrackFusion.Log
import TrackFusion.Node

/-!
# Demonstration

A simulated scene, replayed through a whole node: a car drives ahead of the vehicle and a pedestrian
crosses its path; one sensor sees both ten times a second, for three seconds. The vehicle stands ten
metres along the first axis of the world.

* `Demo.replay`: the messages about the scene under some settings.
* `Demo.records`: the log of it.
-/

namespace TrackFusion.Demo

/-- A detection without anything but its place. -/
def sight (label : Label) (pose : Pose Float) (shape : Shape Float) : Detection Float where
  existence := 0.8
  classes := [⟨label, 0.9⟩]
  kinematics := .ofPose pose
  shape := shape

/-- What the sensor sees after `t` seconds. -/
def scene (t : Float) : List (Detection Float) :=
  [ sight .car ⟨5.0 + 8.0 * t, 3.5, 0, 0⟩ (.box ⟨4.5, 1.8, 1.5⟩),
    sight .pedestrian ⟨15.0, -6.0 + 1.2 * t, 0, Scalar.pi / 2.0⟩ (.cylinder 0.6 1.7) ]

/-- Where the vehicle stands. -/
def frames (s : Settings Float) : FrameTable Float :=
  FrameTable.empty.insert s.egoFrame s.worldFrame { Isometry.identity with origin := ⟨10.0, 0, 0⟩ }

/-- When step `k` of the scene is measured. -/
def stamp (k : Nat) : Time Float := ⟨k.toFloat * 0.1⟩

/-- The batch of step `k` arrives, and the node acts some time later. -/
def step (n : Node Float) (k : Nat) : Node Float × Option (Publication Float) :=
  let t := stamp k
  let n := (n.push? 0 ⟨t, n.settings.egoFrame, 0, scene t.seconds⟩ (t + (0.05 : Float))).getD n
  n.trigger (t + (0.2 : Float))

/-- What came of a scene. -/
structure Replay where
  messages : List (Message Float)
  /-- Tracks at the end. -/
  alive : Nat

/-- Replays the whole scene. -/
def replay (s : Settings Float) : Except Error Replay := do
  let start ← Node.ofSettings s (frames s).lookup ⟨0.0⟩
  let (n, ps) := (List.range 30).foldl
    (fun (n, ps) k =>
      let (n, p) := step n k
      (n, ps ++ p.toList))
    (start, [])
  return ⟨ps.map Publication.confirmed, n.roster.tracks.length⟩

/-- A number with some places, filled up with blanks on the left. -/
def column (width places : Nat) (x : Float) : String :=
  let s := Decimal.fixed places x
  String.ofList (List.replicate (width - s.length) ' ') ++ s

/-- A track on one line; `idText` says how its identity is written. -/
def objectText (idText : TrackId → String) (o : TrackedObject Float) : String :=
  let k := o.kinematics
  "  " ++ idText o.id ++ " " ++ o.label.name
    ++ " x " ++ column 7 2 k.pose.x ++ " y " ++ column 6 2 k.pose.y
    ++ " yaw " ++ column 5 2 k.pose.yaw ++ " v " ++ column 5 2 k.twist.vx
    ++ " p " ++ Decimal.fixed 2 o.existence

/-- A message: how many tracks there are, and each of them. -/
def messageRecords (idText : TrackId → String) (m : Message Float) : List LogRecord :=
  ⟨.info, toString m.objects.length ++ " tracks at " ++ m.stamp.text⟩
    :: m.objects.map fun o => ⟨.info, objectText idText o⟩

/-- The log of a replay, or of its failure. -/
def records (idText : TrackId → String) (r : Except Error Replay) : List LogRecord :=
  match r with
  | .error e => [⟨.error, e.message⟩]
  | .ok r =>
    r.messages.flatMap (messageRecords idText)
      ++ [⟨.info, toString r.alive ++ " tracks alive at the end"⟩]

/-- Zero for success. -/
def exitCode (r : Except Error Replay) : UInt32 :=
  match r with
  | .error _ => 1
  | .ok _ => 0

end TrackFusion.Demo
