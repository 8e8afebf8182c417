import Mathlib
import TrackFusion.Proofs.Json.Records
import TrackFusion.Settings

/-!
# Documents of settings

A document of settings can leave out members of every object in it. What it leaves out has its usual
value, object by object.

* `Settings.Writable`: numbers are read back from their text, and counts are in range.
* `Omission.apply`: a document with some members left out.
* `Settings.overlay`: what such a document stands for.
* `Settings.ofText_overlay`: **settings are read back from their document**, and from one with
  members left out as they are but for these.
-/

namespace TrackFusion

open Json

/-! ### Tables of kinds -/

namespace KindTable

/-- With keys in order there is one entry for each. -/
theorem mem_iff_lookup_reverse (t : KindTable) (l : Label) (name : String) :
    (l, name) ∈ t.entries ↔ t.entries.reverse.lookup l = some name := by
  have hdesc : t.entries.reverse.Pairwise fun a b => b.1.index < a.1.index :=
    List.pairwise_reverse.2 t.sorted
  rw [List.lookup_eq_some_iff, ← List.mem_reverse]
  constructor
  · intro hmem
    obtain ⟨front, back, heq⟩ := List.append_of_mem hmem
    refine ⟨front, back, heq, ?_⟩
    rw [heq, List.pairwise_append] at hdesc
    rintro e he
    have hlt := hdesc.2.2 e he (l, name) (by simp)
    rw [bne_iff_ne]
    rintro rfl
    exact lt_irrefl _ hlt
  · rintro ⟨front, back, heq, -⟩
    simp [heq]

theorem ofEntries_entries (t : KindTable) : ofEntries t.entries = t := by
  obtain ⟨es, hes⟩ := t
  rw [ofEntries, KindTable.mk.injEq]
  have : Std.Irrefl fun a b : Label × String => a.1.index < b.1.index := ⟨fun _ => lt_irrefl _⟩
  have : Std.Antisymm fun a b : Label × String => a.1.index < b.1.index :=
    ⟨fun _ _ h h' => absurd h' h.asymm⟩
  refine (lastEntries_sorted es).eq_of_mem_iff hes ?_
  rintro ⟨l, name⟩
  rw [mem_iff_lookup_reverse ⟨es, hes⟩, lastEntries, List.mem_filterMap]
  simp [Label.mem_all]

theorem reads (t : KindTable) : Reads KindTable.reader t.toJson t := by
  have hentries : List.Forall₂ (IsEntry Label.keys Reader.string)
      (t.entries.map fun e => (e.1.key, Value.str e.2)) t.entries := by
    rw [List.forall₂_map_left_iff, List.forall₂_same]
    exact fun e _ => ⟨Label.lookup_key e.1, reads_string e.2⟩
  have h := reads_mapOf hentries
  constructor
  · exact h.starts
  · intro ws cs rest hws hcs hr
    rw [reader, h.read ws cs rest hws hcs hr]
    simp [Except.map, ofEntries_entries]

end KindTable

variable {α : Type} [Scalar α] [Number α]

/-! ### Channels -/

namespace ChannelSettings

/-- What a document without some members stands for. -/
def overlay (gone : String → Bool) (s : ChannelSettings α) : ChannelSettings α where
  topic := if gone "topic" then usual.topic (α := α) else s.topic
  longName := if gone "long_name" then usual.longName (α := α) else s.longName
  shortName := if gone "short_name" then usual.shortName (α := α) else s.shortName
  expectedRate := if gone "expected_rate" then usual.expectedRate else s.expectedRate
  queueSize := if gone "queue_size" then usual.queueSize (α := α) else s.queueSize

def members (s : ChannelSettings α) (hrate : ReadsBack s.expectedRate)
    (hsize : s.queueSize < 2 ^ 64) : List (Member (ChannelSettings α)) :=
  [ .of "topic" (·.topic) (fun s x => { s with topic := x }) (fun _ => rfl) (reads_string s.topic),
    .of "long_name" (·.longName) (fun s x => { s with longName := x }) (fun _ => rfl)
      (reads_string s.longName),
    .of "short_name" (·.shortName) (fun s x => { s with shortName := x }) (fun _ => rfl)
      (reads_string s.shortName),
    .of "expected_rate" (·.expectedRate) (fun s x => { s with expectedRate := x }) (fun _ => rfl)
      hrate.reads,
    .of "queue_size" (·.queueSize) (fun s x => { s with queueSize := x }) (fun _ => rfl)
      (reads_natural hsize le_rfl) ]

theorem reads_without (gone : String → Bool) (s : ChannelSettings α)
    (hrate : ReadsBack s.expectedRate) (hsize : s.queueSize < 2 ^ 64) :
    Reads reader (s.toJson.without gone) (s.overlay gone) :=
  -- putting the members in one after the other computes to `overlay`
  reads_record gone (s.members hrate hsize) (by simp [members, Member.of]) usual

/-- A document of channels, each without some of its members. -/
theorem reads_items (gone : ℕ → String → Bool) (cs : List (ChannelSettings α))
    (hrate : ∀ c ∈ cs, ReadsBack c.expectedRate) (hsize : ∀ c ∈ cs, c.queueSize < 2 ^ 64) :
    Reads (Reader.listOf reader) ((Value.ofList toJson cs).onItems fun i v => v.without (gone i))
      (cs.mapIdx fun i c => c.overlay (gone i)) := by
  refine reads_listOf (List.forall₂_of_length_eq_of_get (by simp) fun i _ hi => ?_)
  have hi : i < cs.length := by simpa using hi
  have hmem : cs[i] ∈ cs := List.getElem_mem hi
  simpa using reads_without (gone i) _ (hrate _ hmem) (hsize _ hmem)

end ChannelSettings

/-! ### The window of ages -/

namespace WindowSettings

def numbers (s : WindowSettings α) : List α := [s.targetLatency, s.acceptableLatency]

/-- What a document without some members stands for. -/
def overlay (gone : String → Bool) (s : WindowSettings α) : WindowSettings α where
  targetLatency := if gone "target_latency" then usual.targetLatency else s.targetLatency
  acceptableLatency :=
    if gone "acceptable_latency" then usual.acceptableLatency else s.acceptableLatency

def members (s : WindowSettings α) (h : ∀ x ∈ s.numbers, ReadsBack x) :
    List (Member (WindowSettings α)) :=
  [ .of "target_latency" (·.targetLatency) (fun s x => { s with targetLatency := x })
      (fun _ => rfl) (h s.targetLatency (by simp [numbers])).reads,
    .of "acceptable_latency" (·.acceptableLatency) (fun s x => { s with acceptableLatency := x })
      (fun _ => rfl) (h s.acceptableLatency (by simp [numbers])).reads ]

theorem reads_without (gone : String → Bool) (s : WindowSettings α)
    (h : ∀ x ∈ s.numbers, ReadsBack x) :
    Reads reader (s.toJson.without gone) (s.overlay gone) :=
  reads_record gone (s.members h) (by simp [members, Member.of]) usual

end WindowSettings

/-! ### The roster -/

namespace RosterSettings

def numbers (s : RosterSettings α) : List α :=
  [s.maxElapsed, s.mergeDistance, s.minOverlap, s.minOverlapUnknown]

/-- What a document without some members stands for. -/
def overlay (gone : String → Bool) (s : RosterSettings α) : RosterSettings α where
  confirmAfter :=
    if gone "confident_count_threshold" then usual.confirmAfter (α := α) else s.confirmAfter
  maxElapsed := if gone "max_elapsed_time" then usual.maxElapsed else s.maxElapsed
  mergeDistance := if gone "distance_threshold" then usual.mergeDistance else s.mergeDistance
  minOverlap := if gone "min_iou" then usual.minOverlap else s.minOverlap
  minOverlapUnknown :=
    if gone "min_iou_for_unknown_object" then usual.minOverlapUnknown else s.minOverlapUnknown

def members (s : RosterSettings α) (h : ∀ x ∈ s.numbers, ReadsBack x)
    (hcount : s.confirmAfter < 2 ^ 32) : List (Member (RosterSettings α)) :=
  [ .of "confident_count_threshold" (·.confirmAfter) (fun s x => { s with confirmAfter := x })
      (fun _ => rfl) (reads_natural hcount (by decide)),
    .of "max_elapsed_time" (·.maxElapsed) (fun s x => { s with maxElapsed := x }) (fun _ => rfl)
      (h s.maxElapsed (by simp [numbers])).reads,
    .of "distance_threshold" (·.mergeDistance) (fun s x => { s with mergeDistance := x })
      (fun _ => rfl) (h s.mergeDistance (by simp [numbers])).reads,
    .of "min_iou" (·.minOverlap) (fun s x => { s with minOverlap := x }) (fun _ => rfl)
      (h s.minOverlap (by simp [numbers])).reads,
    .of "min_iou_for_unknown_object" (·.minOverlapUnknown)
      (fun s x => { s with minOverlapUnknown := x }) (fun _ => rfl)
      (h s.minOverlapUnknown (by simp [numbers])).reads ]

theorem reads_without (gone : String → Bool) (s : RosterSettings α)
    (h : ∀ x ∈ s.numbers, ReadsBack x) (hcount : s.confirmAfter < 2 ^ 32) :
    Reads reader (s.toJson.without gone) (s.overlay gone) :=
  reads_record gone (s.members h hcount) (by simp [members, Member.of]) usual

end RosterSettings

/-! ### The association -/

/-- Rows of what is read back. -/
theorem reads_rows {β : Type} {item : Reader β} {write : β → Value} (rows : List (List β))
    (h : ∀ x ∈ rows.flatten, Reads item (write x) x) :
    Reads (Reader.listOf (Reader.listOf item)) (.ofList (.ofList write) rows) rows := by
  refine reads_listOf ?_
  rw [List.forall₂_map_left_iff, List.forall₂_same]
  intro row hrow
  refine reads_listOf ?_
  rw [List.forall₂_map_left_iff, List.forall₂_same]
  exact fun x hx => h x (List.mem_flatten.2 ⟨row, hrow, hx⟩)

namespace AssociationSettings

def numbers (s : AssociationSettings α) : List α :=
  s.maxDist.flatten ++ s.maxArea.flatten ++ s.minArea.flatten ++ s.maxRad.flatten ++
    s.minOverlap.flatten

/-- What a document without some members stands for. -/
def overlay (gone : String → Bool) (s : AssociationSettings α) : AssociationSettings α where
  canAssign := if gone "can_assign_matrix" then usual.canAssign (α := α) else s.canAssign
  maxDist := if gone "max_dist_matrix" then usual.maxDist else s.maxDist
  maxArea := if gone "max_area_matrix" then usual.maxArea else s.maxArea
  minArea := if gone "min_area_matrix" then usual.minArea else s.minArea
  maxRad := if gone "max_rad_matrix" then usual.maxRad else s.maxRad
  minOverlap := if gone "min_iou_matrix" then usual.minOverlap else s.minOverlap
  solver := if gone "solver" then usual.solver (α := α) else s.solver

theorem lookup_solver (solver : Solver) : Solver.names.lookup solver.name = some solver := by
  cases solver <;> rfl

def members (s : AssociationSettings α) (h : ∀ x ∈ s.numbers, ReadsBack x) :
    List (Member (AssociationSettings α)) :=
  [ .of "can_assign_matrix" (·.canAssign) (fun s x => { s with canAssign := x }) (fun _ => rfl)
      (reads_rows s.canAssign fun b _ => reads_bool b),
    .of "max_dist_matrix" (·.maxDist) (fun s x => { s with maxDist := x }) (fun _ => rfl)
      (reads_rows s.maxDist fun x hx => (h x (by simp [numbers, hx])).reads),
    .of "max_area_matrix" (·.maxArea) (fun s x => { s with maxArea := x }) (fun _ => rfl)
      (reads_rows s.maxArea fun x hx => (h x (by simp [numbers, hx])).reads),
    .of "min_area_matrix" (·.minArea) (fun s x => { s with minArea := x }) (fun _ => rfl)
      (reads_rows s.minArea fun x hx => (h x (by simp [numbers, hx])).reads),
    .of "max_rad_matrix" (·.maxRad) (fun s x => { s with maxRad := x }) (fun _ => rfl)
      (reads_rows s.maxRad fun x hx => (h x (by simp [numbers, hx])).reads),
    .of "min_iou_matrix" (·.minOverlap) (fun s x => { s with minOverlap := x }) (fun _ => rfl)
      (reads_rows s.minOverlap fun x hx => (h x (by simp [numbers, hx])).reads),
    .of "solver" (·.solver) (fun s x => { s with solver := x }) (fun _ => rfl)
      (reads_oneOf (lookup_solver s.solver)) ]

theorem reads_without (gone : String → Bool) (s : AssociationSettings α)
    (h : ∀ x ∈ s.numbers, ReadsBack x) :
    Reads reader (s.toJson.without gone) (s.overlay gone) :=
  reads_record gone (s.members h) (by simp [members, Member.of]) usual

end AssociationSettings

/-! ### All settings -/

/-- The members that a document leaves out, object by object; those of channels by the place of the
channel. -/
structure Omission where
  settings : String → Bool
  channel : ℕ → String → Bool
  window : String → Bool
  roster : String → Bool
  association : String → Bool

namespace Omission

def none : Omission where
  settings _ := false
  channel _ _ := false
  window _ := false
  roster _ := false
  association _ := false

/-- A document of settings without what is left out. -/
def apply (o : Omission) (document : Value) : Value :=
  ((((document.onMember "input_channels" (.onItems fun i v => v.without (o.channel i))).onMember
    "input" (.without o.window)).onMember
    "processor" (.without o.roster)).onMember
    "association" (.without o.association)).without o.settings

end Omission

namespace Settings

def numbers (s : Settings α) : List α :=
  s.publishRate :: s.channels.map (·.expectedRate) ++ s.window.numbers ++ s.roster.numbers ++
    s.association.numbers

/-- Settings that can be written: numbers are what is read of their text, as all finite ones are if
numbers are printed and read exactly, and counts are in the range of their type. -/
structure Writable (s : Settings α) : Prop where
  numbers : ∀ x ∈ s.numbers, ReadsBack x
  queueSize : ∀ c ∈ s.channels, c.queueSize < 2 ^ 64
  confirmAfter : s.roster.confirmAfter < 2 ^ 32

instance [DecidableEq α] (s : Settings α) : Decidable s.Writable :=
  decidable_of_iff ((s.numbers.all fun x => decide (ReadsBack x)) = true ∧
      (∀ c ∈ s.channels, c.queueSize < 2 ^ 64) ∧ s.roster.confirmAfter < 2 ^ 32)
    ⟨fun h => ⟨by simpa using h.1, h.2.1, h.2.2⟩,
      fun h => ⟨by simpa using h.numbers, h.queueSize, h.confirmAfter⟩⟩

/-- **What a document without some members stands for.** What is left out is as usual, each member
of its own object, and everything else is as it was. -/
def overlay (o : Omission) (s : Settings α) : Settings α where
  worldFrame := if o.settings "world_frame_id" then usual.worldFrame (α := α) else s.worldFrame
  egoFrame := if o.settings "ego_frame_id" then usual.egoFrame (α := α) else s.egoFrame
  publishRate := if o.settings "publish_rate" then usual.publishRate else s.publishRate
  compensateDelay :=
    if o.settings "enable_delay_compensation" then usual.compensateDelay (α := α)
    else s.compensateDelay
  publishTentative :=
    if o.settings "publish_tentative_objects" then usual.publishTentative (α := α)
    else s.publishTentative
  channels :=
    if o.settings "input_channels" then usual.channels
    else s.channels.mapIdx fun i c => c.overlay (o.channel i)
  window := if o.settings "input" then usual.window else s.window.overlay o.window
  kinds := if o.settings "tracker_map" then usual.kinds (α := α) else s.kinds
  roster := if o.settings "processor" then usual.roster else s.roster.overlay o.roster
  association :=
    if o.settings "association" then usual.association
    else s.association.overlay o.association

def members (o : Omission) (s : Settings α) (h : s.Writable) : List (Member (Settings α)) :=
  [ .of "world_frame_id" (·.worldFrame) (fun s x => { s with worldFrame := x }) (fun _ => rfl)
      (reads_string s.worldFrame),
    .of "ego_frame_id" (·.egoFrame) (fun s x => { s with egoFrame := x }) (fun _ => rfl)
      (reads_string s.egoFrame),
    .of "publish_rate" (·.publishRate) (fun s x => { s with publishRate := x }) (fun _ => rfl)
      (h.numbers s.publishRate (by simp [numbers])).reads,
    .of "enable_delay_compensation" (·.compensateDelay)
      (fun s x => { s with compensateDelay := x }) (fun _ => rfl) (reads_bool s.compensateDelay),
    .of "publish_tentative_objects" (·.publishTentative)
      (fun s x => { s with publishTentative := x }) (fun _ => rfl) (reads_bool s.publishTentative),
    .of "input_channels" (·.channels) (fun s x => { s with channels := x }) (fun _ => rfl)
      (ChannelSettings.reads_items o.channel s.channels
        (fun c hc =>
          have hrate : ∃ c' ∈ s.channels, c'.expectedRate = c.expectedRate := ⟨c, hc, rfl⟩
          h.numbers _ (by simp [numbers, hrate])) h.queueSize),
    .of "input" (·.window) (fun s x => { s with window := x }) (fun _ => rfl)
      (s.window.reads_without o.window fun x hx => h.numbers x (by simp [numbers, hx])),
    .of "tracker_map" (·.kinds) (fun s x => { s with kinds := x }) (fun _ => rfl) s.kinds.reads,
    .of "processor" (·.roster) (fun s x => { s with roster := x }) (fun _ => rfl)
      (s.roster.reads_without o.roster (fun x hx => h.numbers x (by simp [numbers, hx]))
        h.confirmAfter),
    .of "association" (·.association) (fun s x => { s with association := x }) (fun _ => rfl)
      (s.association.reads_without o.association fun x hx =>
        h.numbers x (by simp [numbers, hx])) ]

theorem apply_toJson (o : Omission) (s : Settings α) (h : s.Writable) :
    o.apply s.toJson = (Value.obj ((s.members o h).map Member.entry)).without o.settings := by
  simp [Omission.apply, toJson, Value.onMember, members, Member.of, Member.entry]

theorem reads_apply (o : Omission) (s : Settings α) (h : s.Writable) :
    Reads reader (o.apply s.toJson) (s.overlay o) := by
  rw [apply_toJson o s h]
  exact reads_record o.settings (s.members o h) (by simp [members, Member.of]) usual

omit [Scalar α] in
theorem apply_none (s : Settings α) : Omission.none.apply s.toJson = s.toJson := by
  have hwithout : ∀ v : Value, v.without (fun _ => false) = v := by
    rintro (_ | _ | _ | _ | _ | ms) <;> simp [Value.without]
  have hitems : ∀ vs : List Value, vs.mapIdx (fun _ v => v) = vs := fun vs =>
    List.mapIdx_eq_iff.2 fun i => by simp
  simp [Omission.apply, Omission.none, toJson, Value.onMember, Value.onItems, Value.ofList,
    hwithout, hitems]

omit [Number α] in
theorem overlay_none (s : Settings α) : s.overlay .none = s := by
  have hchannels : s.channels.mapIdx (fun _ c => c.overlay fun _ => false) = s.channels :=
    List.mapIdx_eq_iff.2 fun i => by simp [ChannelSettings.overlay]
  simp [overlay, Omission.none, hchannels, WindowSettings.overlay, RosterSettings.overlay,
    AssociationSettings.overlay]

/-- What is read is checked. -/
theorem ofText_of_reads {v : Value} {s : Settings α} (h : Reads reader v s) {text : String}
    (htext : Spells text v) : ofText text = s.check.map fun _ => s := by
  rw [ofText, h.run htext]
  rfl

/-- **Settings are read back from their document, up to their check.** A text of that document
without any of its members, laid out in any way, stands for the settings in which these members are
as usual, each in its own object, and which are the same otherwise. -/
theorem ofText_overlay (s : Settings α) (h : s.Writable) :
    ofText s.text = (s.check.map fun _ => s) ∧
      ∀ (o : Omission) (text : String), Spells text (o.apply s.toJson) →
        Reader.run reader text = .ok (s.overlay o) ∧
          ofText text = (s.overlay o).check.map fun _ => s.overlay o := by
  refine ⟨?_, fun o text htext => ?_⟩
  · have hreads := reads_apply .none s h
    rw [apply_none, overlay_none] at hreads
    exact ofText_of_reads hreads (spells_pretty s.toJson)
  · have hreads := reads_apply o s h
    exact ⟨hreads.run htext, ofText_of_reads hreads htext⟩

/-- Two channels, bicycles that are tracked as pedestrians and nothing else, and one bound on all
distances. -/
def twoChannels : Settings Float :=
  { (usual : Settings Float) with
    worldFrame := "odom \"east\""
    publishRate := 12.5
    channels := [⟨"/lidar", "lidar", "l", 0.1, 3⟩, ⟨"/radar", "radar", "r", 1e-7, 7⟩]
    window := ⟨0.25, 0.5⟩
    kinds := .ofEntries [(.bicycle, TrackKind.pedestrian.name)]
    roster := ⟨1, 2.0, 5.0, 0.3, 0.4⟩
    association :=
      { AssociationSettings.usual with
        maxDist := .replicate 8 (.replicate 8 2.5)
        solver := .greedy } }

/-- Leaves out the rate, the topic of the second channel, a latency, a count and a table. -/
def someLeftOut : Omission where
  settings key := key == "publish_rate"
  channel i key := i == 1 && key == "topic"
  window key := key == "target_latency"
  roster key := key == "confident_count_threshold"
  association key := key == "max_dist_matrix"

theorem twoChannels_writable : twoChannels.Writable := by decide +kernel

theorem ofText_overlay_twoChannels :
    twoChannels.Writable ∧ ofText twoChannels.text = .ok twoChannels ∧
      ofText (someLeftOut.apply twoChannels.toJson).pretty =
        .ok { twoChannels with
          publishRate := 10.0
          channels := [⟨"/lidar", "lidar", "l", 0.1, 3⟩,
            ⟨"/perception/object_recognition/detection/objects", "radar", "r", 1e-7, 7⟩]
          window := ⟨0.15, 0.5⟩
          roster := ⟨3, 2.0, 5.0, 0.3, 0.4⟩
          association := { AssociationSettings.usual with solver := .greedy } } := by
  have h := ofText_overlay twoChannels twoChannels_writable
  refine ⟨twoChannels_writable, ?_, ?_⟩
  · rw [h.1]
    decide +kernel
  · rw [(h.2 someLeftOut _ (spells_pretty _)).2]
    decide +kernel

end Settings

end TrackFusion
