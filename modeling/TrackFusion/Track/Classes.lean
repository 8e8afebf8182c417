import TrackFusion.Label

/-!
# Classes of a track

The class probabilities of a track are smoothed over its detections.

* `blendClasses`: the classes of a track after a detection.
-/

namespace TrackFusion

variable {α : Type} [Scalar α]

/-- Weight of the classes of a detection. -/
def classGain : α := 0.05

/-- Classes of a lower probability are dropped. -/
def minClassProbability : α := 0.001

/-- The sum of the probabilities of each class that is listed, in the order of the classes. -/
def sumByClass (cs : List (Classification α)) : List (Classification α) :=
  Label.all.filterMap fun l =>
    match cs.filter fun c => c.label = l with
    | [] => none
    | same => some ⟨l, same.foldl (fun acc c => acc + c.probability) 0⟩

def scaleClasses (weight : α) (cs : List (Classification α)) : List (Classification α) :=
  cs.map fun c => { c with probability := weight * c.probability }

/-- The classes of a track after a detection. They stay as they are if the detection tells nothing:
if it is of no class, of the unknown one, or if nothing is left after dropping what is unlikely. -/
def blendClasses (old measured : List (Classification α)) : List (Classification α) :=
  if measured.isEmpty || mostLikely measured = .unknown then old
  else
    let blended :=
      sumByClass (scaleClasses (1.0 - classGain) old ++ scaleClasses classGain measured)
    let kept := blended.filter fun c => decide (minClassProbability ≤ c.probability)
    let total : α := kept.foldl (fun acc c => acc + c.probability) 0
    if total ≤ 0 then old
    else kept.map fun c => { c with probability := c.probability / total }

end TrackFusion
