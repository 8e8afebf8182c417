import TrackFusion.Track.Model

/-!
# Kinds of tracks

* `TrackKind`: the kinds of tracks that can be chosen for a class, by name.
* `TrackKind.spawn`: the model of a new track.
* `KindTable`: which kind the tracks of a class are.
-/

namespace TrackFusion

/-- What a track is tracked as. -/
inductive TrackKind where
  | normalVehicle
  | bigVehicle
  /-- A normal or a big vehicle, depending on the class. -/
  | multiVehicle
  | bicycle
  | pedestrian
  /-- A pedestrian or a bicycle, depending on the class. -/
  | pedestrianAndBicycle
  | constantVelocity
  | passThrough
  | unknown
  deriving DecidableEq, Repr

namespace TrackKind

def all : List TrackKind :=
  [normalVehicle, bigVehicle, multiVehicle, bicycle, pedestrian, pedestrianAndBicycle,
    constantVelocity, passThrough, unknown]

def name : TrackKind → String
  | normalVehicle => "normal_vehicle_tracker"
  | bigVehicle => "big_vehicle_tracker"
  | multiVehicle => "multi_vehicle_tracker"
  | bicycle => "bicycle_tracker"
  | pedestrian => "pedestrian_tracker"
  | pedestrianAndBicycle => "pedestrian_and_bicycle_tracker"
  | constantVelocity => "cv_tracker"
  | passThrough => "pass_through_tracker"
  | unknown => "unknown_tracker"

def ofName? (s : String) : Option TrackKind := all.find? fun k => k.name == s

variable {α : Type} [Scalar α]

/-- Classes of big vehicles. -/
def isBig : Label → Bool
  | .truck => true
  | .bus => true
  | .trailer => true
  | _ => false

/-- The profile of a kind with a box and a heading. -/
def boxProfile? (k : TrackKind) (label : Label) : Option (BoxProfile α) :=
  match k with
  | normalVehicle => some .normalVehicle
  | bigVehicle => some .bigVehicle
  | multiVehicle => some (if isBig label then .bigVehicle else .normalVehicle)
  | bicycle => some .bicycle
  | pedestrian => some .pedestrian
  | pedestrianAndBicycle => some (if label = .pedestrian then .pedestrian else .bicycle)
  | _ => none

/-- The model of a new track at a detection of some class. -/
def spawn (k : TrackKind) (t : Time α) (d : Detection α) (label : Label) : TrackModel α :=
  match k.boxProfile? label with
  | some profile => .box (.spawn t d profile)
  | none =>
    match k with
    | constantVelocity => .point (.spawn t d .generic)
    | passThrough => .passThrough ⟨d, t⟩
    | _ => .unclassified (.spawn t d .unclassified)

end TrackKind

/-- Names of the kind of track for some classes, in the order of the classes. -/
structure KindTable where
  entries : List (Label × String)
  sorted : entries.Pairwise fun a b => a.1.index < b.1.index
  deriving DecidableEq

namespace KindTable

/-- The entries that count, in the order of the classes. Of several for one class it is the last
one. -/
def lastEntries (es : List (Label × String)) : List (Label × String) :=
  Label.all.filterMap fun l => (es.reverse.lookup l).map fun name => (l, name)

theorem lastEntries_sorted (es : List (Label × String)) :
    (lastEntries es).Pairwise fun a b => a.1.index < b.1.index := by
  have hall : Label.all.Pairwise fun l l' => l.index < l'.index := by decide
  refine List.pairwise_filterMap.2 (hall.imp fun {l l'} hlt a ha b hb => ?_)
  obtain ⟨_, -, rfl⟩ := Option.map_eq_some_iff.1 ha
  obtain ⟨_, -, rfl⟩ := Option.map_eq_some_iff.1 hb
  exact hlt

/-- The table of some entries; of several for one class, the last one counts. -/
def ofEntries (es : List (Label × String)) : KindTable := ⟨lastEntries es, lastEntries_sorted es⟩

def name? (t : KindTable) (l : Label) : Option String := t.entries.lookup l

/-- The kind of the tracks of a class. A name that no kind has stands for the unknown kind, and so
does no name. -/
def kind (t : KindTable) (l : Label) : TrackKind :=
  ((t.name? l).bind TrackKind.ofName?).getD .unknown

/-- The entries whose name no kind has. -/
def unresolved (t : KindTable) : List (Label × String) :=
  t.entries.filter fun e => (TrackKind.ofName? e.2).isNone

def usual : KindTable :=
  ofEntries [
    (.car, TrackKind.multiVehicle.name),
    (.truck, TrackKind.multiVehicle.name),
    (.bus, TrackKind.multiVehicle.name),
    (.trailer, TrackKind.multiVehicle.name),
    (.pedestrian, TrackKind.pedestrianAndBicycle.name),
    (.bicycle, TrackKind.pedestrianAndBicycle.name),
    (.motorcycle, TrackKind.pedestrianAndBicycle.name)]

def reader : Json.Reader KindTable := fun cs =>
  (Json.Reader.mapOf Label.keys Json.Reader.string cs).map fun (es, cs) => (ofEntries es, cs)

def toJson (t : KindTable) : Json.Value :=
  .obj (t.entries.map fun (l, name) => (l.key, .str name))

end KindTable

end TrackFusion
