import TrackFusion.Association.Basic
import TrackFusion.Frame.Lookup
import TrackFusion.Input.Intake
import TrackFusion.Roster.Basic
import TrackFusion.Settings

/-!
# The tracker

A node takes in batches, pairs their detections with tracks, and decides when to publish. The caller
has the clock: it says when batches arrive and when the node may act.

* `Node.process?`: what one batch does to the tracks.
* `Node.trigger`: works through what the intake releases, on the arrival of data.
* `Node.tick`: publishes when a message is overdue.
* `Publication`: what is published at one time.
-/

namespace TrackFusion

/-- The messages of one time. -/
structure Publication (α : Type) where
  confirmed : Message α
  /-- The tracks that are not confirmed, if they are published. -/
  tentative? : Option (Message α)

structure Node (α : Type) where
  settings : Settings α
  intake : Intake α
  association : Association α
  roster : Roster α
  frames : FrameLookup α
  lastPublished : Time α

namespace Node

variable {α : Type} [Scalar α]

/-- A node with some settings, if they make sense. Its tracks will have the identities of a stream,
one after the other. -/
def ofSettings [Json.Number α] (s : Settings α) (frames : FrameLookup α) (now : Time α)
    (ids : IdStream := .counting) : Except Error (Node α) := do
  s.check
  let intake ← Intake.ofSettings s.channels s.window now
  let association ← Association.ofSettings s.association
  return {
    settings := s
    intake := intake
    association := association
    roster := .empty s.roster s.kinds ids
    frames := frames
    lastPublished := now }

/-- Share of the publishing period that has to pass before arriving data lead to a message. -/
def minInterval : α := 0.70

/-- Share of the publishing period after which a message is overdue. -/
def maxInterval : α := 1.11

/-- Ticks in a publishing period. -/
def tickRate : α := 20.0

/-- Seconds between ticks. -/
def tickPeriod (n : Node α) : α := n.settings.publishPeriod / tickRate

/-- A batch arrives on a channel, if there is such a channel. -/
def push? (n : Node α) (channel : Nat) (b : Batch α) (now : Time α) : Option (Node α) :=
  (n.intake.push? channel b now).map fun m => { n with intake := m }

/-- The pose of the vehicle and the batch in the world frame, if both are known. -/
def locate? (n : Node α) (b : Batch α) : Option (Isometry α × Batch α) := do
  let ego ← n.frames n.settings.egoFrame n.settings.worldFrame b.stamp
  let seen ← b.inFrame? n.settings.worldFrame n.frames
  return (ego, seen)

/-- Which detections of a batch in the world frame belong to which tracks. -/
def pair? (n : Node α) (b : Batch α) : Option Pairing :=
  (Association.assign n.association.solver (n.association.scores b n.roster.tracks)).toOption

/-- The node after a batch. A batch that cannot be located is skipped. -/
def process? (n : Node α) (b : Batch α) : Option (Node α) := do
  let (ego, seen) ← n.locate? b
  let pairing ← n.pair? seen
  return { n with roster := (n.roster.absorb seen ego pairing).prune b.stamp }

/-- The node after some batches, and the stamp of the last one that was not skipped. -/
def processAll (n : Node α) (bs : List (Batch α)) : Node α × Option (Time α) :=
  bs.foldl
    (fun (n, last) b =>
      match n.process? b with
      | some n => (n, some b.stamp)
      | none => (n, last))
    (n, none)

/-- The tracks as they are at a time. -/
def publicationAt (n : Node α) (now : Time α) : Publication α where
  confirmed := ⟨now, n.settings.worldFrame, n.roster.confirmedAt now⟩
  tentative? :=
    if n.settings.publishTentative then some ⟨now, n.settings.worldFrame, n.roster.tentativeAt now⟩
    else none

/-- Prunes and publishes. -/
def publish (n : Node α) (now : Time α) : Node α × Publication α :=
  let n := { n with roster := n.roster.prune now, lastPublished := now }
  (n, n.publicationAt now)

/-- Works through the batches that are released. Without delay compensation, the tracks are
published as of the last of them; else if the last message is some time ago. -/
def trigger (n : Node α) (now : Time α) : Node α × Option (Publication α) :=
  let (released, intake) := n.intake.release now
  let n := { n with intake := intake }
  if released.batches.isEmpty then (n, none)
  else
    let (n, last) := n.processAll released.batches
    if !n.settings.compensateDelay then (n, last.map n.publicationAt)
    else if n.settings.publishPeriod * minInterval < now - n.lastPublished then
      let (n, p) := n.publish now
      (n, some p)
    else (n, none)

/-- With delay compensation, works through the batches that are released and publishes, if a message
is overdue. -/
def tick (n : Node α) (now : Time α) : Node α × Option (Publication α) :=
  if !n.settings.compensateDelay then (n, none)
  else if now - n.lastPublished < n.settings.publishPeriod * maxInterval then (n, none)
  else
    let (released, intake) := n.intake.release now
    let (n, _) := ({ n with intake := intake }).processAll released.batches
    let (n, p) := n.publish now
    (n, some p)

end Node

end TrackFusion
