import TrackFusion.Motion.ConstantVelocity
import TrackFusion.Motion.TurnRate
import TrackFusion.Object.Shape

/-!
# Profiles

What is assumed about objects of a class: how precisely they are measured, how uncertain a new track
is, and how they move. Variances of positions and of linear velocities are given along and across
the heading.

* `BoxProfile`: for objects with a box and a heading.
* `PointProfile`: for objects of which only the position and the velocity are estimated.
-/

namespace TrackFusion

/-- Bounds for the boxes of large objects: which measured sizes are believed, and how large the box
of a track can be. -/
structure SizeLimits (α : Type) where
  inputMin : α
  inputMax : α
  min : α
  max : α

/-- Assumptions for objects with a box and a heading. -/
structure BoxProfile (α : Type) where
  measuredX : α
  measuredY : α
  measuredYaw : α
  measuredSpeed : α
  initialX : α
  initialY : α
  initialYaw : α
  initialSpeed : α
  initialTurn : α
  /-- A measured speed counts only if it differs by less than this from the estimated one. -/
  speedTolerance : α
  /-- Share of a measured box in the box of the track. -/
  shapeGain : α
  /-- Whether the side of the box that faces the observer stays when the size changes, and not the
  centre. -/
  anchored : Bool
  sizeLimits : Option (SizeLimits α)
  motion : TurnRate.Params α

/-- Assumptions for objects of which only position and velocity are estimated. -/
structure PointProfile (α : Type) where
  measuredX : α
  measuredY : α
  measuredVx : α
  measuredVy : α
  initialX : α
  initialY : α
  initialVx : α
  initialVy : α
  motion : ConstantVelocity.Params α

variable {α : Type} [Scalar α]

/-- The variance of a standard deviation. -/
def square (x : α) : α := x * x

namespace SizeLimits

/-- Whether a measured size is believed. -/
def accepts (l : SizeLimits α) (length width : α) : Bool :=
  decide (l.inputMin ≤ length) && decide (length ≤ l.inputMax)
    && decide (l.inputMin ≤ width) && decide (width ≤ l.inputMax)

def clamp (l : SizeLimits α) (v : α) : α := Scalar.clamp l.min l.max v

def clampBox (l : SizeLimits α) (b : Box α) : Box α :=
  ⟨l.clamp b.length, l.clamp b.width, l.clamp b.height⟩

end SizeLimits

namespace BoxProfile

open Scalar (degrees)

def normalVehicle : BoxProfile α where
  measuredX := square 0.5
  measuredY := square 0.4
  measuredYaw := square (degrees 20.0)
  measuredSpeed := square 1.0
  initialX := square 1.0
  initialY := square 0.3
  initialYaw := square (degrees 25.0)
  initialSpeed := square (kilometresPerHour 1000.0)
  initialTurn := square (degrees 30.0)
  speedTolerance := kilometresPerHour 10.0
  shapeGain := 0.2
  anchored := true
  sizeLimits := none
  motion :=
    (TurnRate.Params.ofDeviations 0.5 0.5 (degrees 15.0) (9.8 * 0.35) (degrees 15.0)).withLimits
      (kilometresPerHour 100.0) (degrees 30.0)

def bigVehicle : BoxProfile α :=
  { normalVehicle with
    measuredX := square 1.5
    measuredY := square 0.5
    initialX := square 1.5
    initialY := square 0.5
    shapeGain := 0.5
    sizeLimits := some ⟨1.0, 40.0, 1.0, 30.0⟩ }

def bicycle : BoxProfile α where
  measuredX := square 0.5
  measuredY := square 0.4
  measuredYaw := square (degrees 30.0)
  measuredSpeed := square (kilometresPerHour 10.0)
  initialX := square 0.8
  initialY := square 0.5
  initialYaw := square (degrees 25.0)
  initialSpeed := square (kilometresPerHour 1000.0)
  initialTurn := square (degrees 30.0)
  speedTolerance := kilometresPerHour 10.0
  shapeGain := 0.1
  anchored := false
  sizeLimits := none
  motion :=
    (TurnRate.Params.ofDeviations 0.5 0.5 (degrees 20.0) (9.8 * 0.3) (degrees 30.0)).withLimits
      (kilometresPerHour 80.0) (degrees 30.0)

def pedestrian : BoxProfile α where
  measuredX := square 0.4
  measuredY := square 0.4
  measuredYaw := square (degrees 30.0)
  measuredSpeed := square (kilometresPerHour 5.0)
  initialX := square 2.0
  initialY := square 2.0
  initialYaw := square (degrees 1000.0)
  initialSpeed := square (kilometresPerHour 120.0)
  initialTurn := square (degrees 360.0)
  speedTolerance := kilometresPerHour 10.0
  shapeGain := 0.1
  anchored := false
  sizeLimits := none
  motion :=
    (TurnRate.Params.ofDeviations 0.5 0.5 (degrees 20.0) (kilometresPerHour 5.0)
      (degrees 30.0)).withLimits (kilometresPerHour 100.0) (degrees 30.0)

/-- Whether a measured box may change the box of the track. Where sizes are limited, only shapes
that are boxes themselves may. -/
def accepts (p : BoxProfile α) (shape : Shape α) (measured : Box α) : Bool :=
  match p.sizeLimits with
  | some limits => shape.isBox && limits.accepts measured.length measured.width
  | none => true

/-- The box of a track after a measured box was accepted. -/
def blendBox (p : BoxProfile α) (box measured : Box α) : Box α :=
  let blended := box.blend measured p.shapeGain
  match p.sizeLimits with
  | some limits => limits.clampBox blended
  | none => blended

end BoxProfile

namespace PointProfile

def generic : PointProfile α where
  measuredX := square 0.5
  measuredY := square 0.5
  measuredVx := square 1.0
  measuredVy := square 1.0
  initialX := square 1.0
  initialY := square 1.0
  initialVx := square (kilometresPerHour 120.0)
  initialVy := square (kilometresPerHour 120.0)
  motion := .usual

/-- For objects without a class: looser, since their outline is not stable. -/
def unclassified : PointProfile α :=
  { generic with
    measuredX := square 1.0
    measuredY := square 1.0
    motion :=
      (ConstantVelocity.Params.ofDeviations 0.5 0.5 (9.8 * 0.5) (9.8 * 0.5)).withLimits
        (kilometresPerHour 60.0) (kilometresPerHour 60.0) }

end PointProfile

end TrackFusion
