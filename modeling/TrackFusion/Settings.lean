import TrackFusion.Association.Settings
import TrackFusion.Input.Settings
import TrackFusion.Roster.Settings
import TrackFusion.Track.Kind

/-!
# Settings of a tracker

Every setting has a usual value, so that a document with some of them, or none, is a configuration.

* `Settings`: all settings.
* `Settings.check`: whether they make sense together.
* `Settings.ofJson`, `toJson`: their JSON form.
-/

namespace TrackFusion

structure Settings (α : Type) where
  /-- The frame in which objects are tracked and published. -/
  worldFrame : String
  /-- The frame of the vehicle that carries the sensors. -/
  egoFrame : String
  /-- Messages per second. -/
  publishRate : α
  /-- Whether messages are published in time, extrapolated, or else with each measurement. -/
  compensateDelay : Bool
  /-- Whether tracks that are not confirmed are published, too. -/
  publishTentative : Bool
  channels : List (ChannelSettings α)
  window : WindowSettings α
  kinds : KindTable
  roster : RosterSettings α
  association : AssociationSettings α
  deriving BEq, DecidableEq

namespace Settings

variable {α : Type} [Scalar α]

def usual : Settings α where
  worldFrame := "map"
  egoFrame := "base_link"
  publishRate := 10.0
  compensateDelay := false
  publishTentative := false
  channels := [.usual]
  window := .usual
  kinds := .usual
  roster := .usual
  association := .usual

/-- Seconds between two messages. -/
def publishPeriod (s : Settings α) : α := 1.0 / s.publishRate

open Json

variable [Number α]

/-- Fails with the first reason why the settings make no sense. -/
def check (s : Settings α) : Except Error Unit := do
  if s.worldFrame = "" ∨ s.egoFrame = "" then
    throw (.invalidConfig "frame ids must not be empty")
  if !(Scalar.isFinite s.publishRate && decide (0 < s.publishRate)) then
    throw (.invalidConfig ("publish_rate must be positive, got " ++ Number.plain s.publishRate))
  if s.channels.isEmpty then throw .noInputStreams
  s.channels.forM ChannelSettings.check
  s.window.check
  s.roster.check
  discard (Gates.ofSettings s.association)

/-- The members of the JSON form, in their order. -/
def fields : List (Reader.Field (Settings α)) :=
  [ .optional "world_frame_id" Reader.string fun s x => { s with worldFrame := x },
    .optional "ego_frame_id" Reader.string fun s x => { s with egoFrame := x },
    .optional "publish_rate" Reader.number fun s x => { s with publishRate := x },
    .optional "enable_delay_compensation" Reader.bool fun s x => { s with compensateDelay := x },
    .optional "publish_tentative_objects" Reader.bool fun s x => { s with publishTentative := x },
    .optional "input_channels" (Reader.listOf ChannelSettings.reader) fun s x =>
      { s with channels := x },
    .optional "input" WindowSettings.reader fun s x => { s with window := x },
    .optional "tracker_map" KindTable.reader fun s x => { s with kinds := x },
    .optional "processor" RosterSettings.reader fun s x => { s with roster := x },
    .optional "association" AssociationSettings.reader fun s x => { s with association := x } ]

def reader : Reader (Settings α) := Reader.record fields usual

def toJson (s : Settings α) : Value :=
  .obj [
    ("world_frame_id", .str s.worldFrame),
    ("ego_frame_id", .str s.egoFrame),
    ("publish_rate", .ofNumber s.publishRate),
    ("enable_delay_compensation", .bool s.compensateDelay),
    ("publish_tentative_objects", .bool s.publishTentative),
    ("input_channels", .ofList ChannelSettings.toJson s.channels),
    ("input", s.window.toJson),
    ("tracker_map", s.kinds.toJson),
    ("processor", s.roster.toJson),
    ("association", s.association.toJson)]

/-- The document of some settings. -/
def text (s : Settings α) : String := s.toJson.pretty

/-- The settings of a document, if it can be read and they make sense. -/
def ofText (document : String) : Except Error (Settings α) := do
  let s ← (Reader.run reader document).mapError Error.unreadableConfig
  s.check
  return s

end Settings

end TrackFusion
