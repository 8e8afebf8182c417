import TrackFusion.Json.Encode
import TrackFusion.Json.Reader
import TrackFusion.Scalar

/-!
# Object classes

* `Label`: the classes of objects, in the order of every table over classes.
* `Classification`: a class with a probability.
* `mostLikely`: the class of a list of classifications.
-/

namespace TrackFusion

/-- Class of an object. -/
inductive Label where
  | unknown
  | car
  | truck
  | bus
  | trailer
  | motorcycle
  | bicycle
  | pedestrian
  deriving DecidableEq, Repr

namespace Label

/-- All classes in the order of their indices. -/
def all : List Label := [unknown, car, truck, bus, trailer, motorcycle, bicycle, pedestrian]

def index : Label → Fin 8
  | unknown => 0
  | car => 1
  | truck => 2
  | bus => 3
  | trailer => 4
  | motorcycle => 5
  | bicycle => 6
  | pedestrian => 7

def ofIndex? (i : Nat) : Option Label := all[i]?

/-- The name in messages. -/
def name : Label → String
  | unknown => "UNKNOWN"
  | car => "CAR"
  | truck => "TRUCK"
  | bus => "BUS"
  | trailer => "TRAILER"
  | motorcycle => "MOTORCYCLE"
  | bicycle => "BICYCLE"
  | pedestrian => "PEDESTRIAN"

/-- The name in configurations. -/
def key : Label → String
  | unknown => "unknown"
  | car => "car"
  | truck => "truck"
  | bus => "bus"
  | trailer => "trailer"
  | motorcycle => "motorcycle"
  | bicycle => "bicycle"
  | pedestrian => "pedestrian"

/-- The classes by their names in configurations. -/
def keys : List (String × Label) := all.map fun l => (l.key, l)

theorem mem_all (l : Label) : l ∈ all := by cases l <;> decide

theorem lookup_key (l : Label) : keys.lookup l.key = some l := by cases l <;> decide

def reader : Json.Reader Label := Json.Reader.oneOf keys

def toJson (l : Label) : Json.Value := .str l.key

end Label

/-- A class and how likely it is. -/
structure Classification (α : Type) where
  label : Label
  probability : α
  deriving BEq, DecidableEq

namespace Classification

variable {α : Type} [Scalar α]

open Json

variable [Number α]

/-- The members of the JSON form, in their order. None may be missing. -/
def fields : List (Reader.Field (Classification α)) :=
  [ .needed "label" Label.reader fun c x => { c with label := x },
    .needed "probability" Reader.number fun c x => { c with probability := x } ]

def reader : Reader (Classification α) := Reader.record fields ⟨.unknown, 0⟩

def toJson (c : Classification α) : Value :=
  .obj [("label", c.label.toJson), ("probability", .ofNumber c.probability)]

end Classification

/-- Whether `c` is likelier than the best one so far. The first one needs a probability above
minus infinity. -/
def Classification.beats {α : Type} [Scalar α] (best : Option (Classification α))
    (c : Classification α) : Bool :=
  match best with
  | none => Scalar.isFinite c.probability || decide (0 < c.probability)
  | some b => decide (b.probability < c.probability)

/-- The likeliest class: unknown if there is none, and the first one of several. -/
def mostLikely {α : Type} [Scalar α] (cs : List (Classification α)) : Label :=
  match cs.foldl (fun best c => if c.beats best then some c else best) none with
  | some c => c.label
  | none => .unknown

end TrackFusion
