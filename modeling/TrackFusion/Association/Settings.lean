import TrackFusion.Error
import TrackFusion.Json.Encode
import TrackFusion.Json.Reader
import TrackFusion.Label
import TrackFusion.Linear.Matrix

/-!
# Settings of the association

Every pair of a track and a detection has to pass some gates. Their bounds are tables over the class
of the track (rows) and that of the detection (columns).

* `AssociationSettings`: the tables as they are configured.
* `Gates`: tables that have the right size and sensible entries.
-/

namespace TrackFusion

/-- How the best pairs are found. -/
inductive Solver where
  /-- The greatest total score. -/
  | optimal
  /-- The highest scores first. -/
  | greedy
  deriving DecidableEq, Repr

/-- The configured tables, in rows. -/
structure AssociationSettings (α : Type) where
  canAssign : List (List Bool)
  /-- Bound on the distance. -/
  maxDist : List (List α)
  /-- Bounds on the area of the detection. -/
  maxArea : List (List α)
  minArea : List (List α)
  /-- Bound on the difference of headings; half a turn and more is no bound. -/
  maxRad : List (List α)
  /-- Bound on the overlap. -/
  minOverlap : List (List α)
  solver : Solver
  deriving BEq, DecidableEq

/-- The tables with one row and one column for each class. -/
structure Gates (α : Type) where
  canAssign : Mat 8 8 Bool
  maxDist : Mat 8 8 α
  maxArea : Mat 8 8 α
  minArea : Mat 8 8 α
  maxRad : Mat 8 8 α
  minOverlap : Mat 8 8 α

namespace Solver

def name : Solver → String
  | optimal => "hungarian"
  | greedy => "greedy"

def names : List (String × Solver) := [(optimal.name, optimal), (greedy.name, greedy)]

end Solver

namespace AssociationSettings

variable {α : Type} [Scalar α]

def usual : AssociationSettings α :=
  let t := true
  let f := false
  let x : α := 10000.0
  let r : α := 3.150
  let v : α := 1.047
  { canAssign := [
      [t, f, f, f, f, f, f, f],
      [f, t, t, t, t, f, f, f],
      [f, t, t, t, t, f, f, f],
      [f, t, t, t, t, f, f, f],
      [f, t, t, t, t, f, f, f],
      [f, f, f, f, f, t, t, t],
      [f, f, f, f, f, t, t, t],
      [f, f, f, f, f, t, t, t]]
    maxDist := [
      [4.0, 4.0, 5.0, 5.0, 5.0, 2.0, 2.0, 2.0],
      [4.0, 2.0, 5.0, 5.0, 5.0, 2.0, 2.0, 2.0],
      [5.0, 5.0, 5.0, 5.0, 5.0, 2.0, 2.0, 2.0],
      [5.0, 5.0, 5.0, 5.0, 5.0, 2.0, 2.0, 2.0],
      [5.0, 5.0, 5.0, 5.0, 5.0, 2.0, 2.0, 2.0],
      [2.0, 2.0, 2.0, 2.0, 2.0, 3.0, 3.0, 3.0],
      [2.0, 2.0, 2.0, 2.0, 2.0, 3.0, 3.0, 3.0],
      [2.0, 2.0, 2.0, 2.0, 2.0, 2.0, 2.0, 2.0]]
    maxArea := [
      [x, x, x, x, x, x, x, x],
      [12.10, 12.10, 36.00, 60.00, 60.00, x, x, x],
      [36.00, 12.10, 36.00, 60.00, 60.00, x, x, x],
      [60.00, 12.10, 36.00, 60.00, 60.00, x, x, x],
      [60.00, 12.10, 36.00, 60.00, 60.00, x, x, x],
      [2.50, x, x, x, x, 2.50, 2.50, 1.00],
      [2.50, x, x, x, x, 2.50, 2.50, 1.00],
      [2.00, x, x, x, x, 1.50, 1.50, 1.00]]
    minArea := [
      [0.0, 0.0, 0.0, 0.0, 0.0, 0.0, 0.0, 0.0],
      [3.6, 3.6, 6.0, 10.0, 10.0, 0.0, 0.0, 0.0],
      [6.0, 3.6, 6.0, 10.0, 10.0, 0.0, 0.0, 0.0],
      [10.0, 3.6, 6.0, 10.0, 10.0, 0.0, 0.0, 0.0],
      [10.0, 3.6, 6.0, 10.0, 10.0, 0.0, 0.0, 0.0],
      [0.001, 0.0, 0.0, 0.0, 0.0, 0.1, 0.1, 0.1],
      [0.001, 0.0, 0.0, 0.0, 0.0, 0.1, 0.1, 0.1],
      [0.001, 0.0, 0.0, 0.0, 0.0, 0.1, 0.1, 0.1]]
    maxRad := [
      [r, r, r, r, r, r, r, r],
      [r, v, v, v, v, r, r, r],
      [r, v, v, v, v, r, r, r],
      [r, v, v, v, v, r, r, r],
      [r, v, v, v, v, r, r, r],
      [r, r, r, r, r, r, r, r],
      [r, r, r, r, r, r, r, r],
      [r, r, r, r, r, r, r, r]]
    minOverlap := [
      [0.0001, 0.1, 0.1, 0.1, 0.1, 0.1, 0.1, 0.1],
      [0.1, 0.1, 0.2, 0.2, 0.2, 0.1, 0.1, 0.1],
      [0.1, 0.2, 0.3, 0.3, 0.3, 0.1, 0.1, 0.1],
      [0.1, 0.2, 0.3, 0.3, 0.3, 0.1, 0.1, 0.1],
      [0.1, 0.2, 0.3, 0.3, 0.3, 0.1, 0.1, 0.1],
      [0.1, 0.1, 0.1, 0.1, 0.1, 0.1, 0.1, 0.1],
      [0.1, 0.1, 0.1, 0.1, 0.1, 0.1, 0.1, 0.1],
      [0.1, 0.1, 0.1, 0.1, 0.1, 0.1, 0.1, 0.0001]]
    solver := .optimal }

open Json

/-- The members of the JSON form, in their order. -/
def fields [Number α] : List (Reader.Field (AssociationSettings α)) :=
  let numbers := Reader.listOf (Reader.listOf (Reader.number (α := α)))
  let flags := Reader.listOf (Reader.listOf Reader.bool)
  [ .optional "can_assign_matrix" flags fun s x => { s with canAssign := x },
    .optional "max_dist_matrix" numbers fun s x => { s with maxDist := x },
    .optional "max_area_matrix" numbers fun s x => { s with maxArea := x },
    .optional "min_area_matrix" numbers fun s x => { s with minArea := x },
    .optional "max_rad_matrix" numbers fun s x => { s with maxRad := x },
    .optional "min_iou_matrix" numbers fun s x => { s with minOverlap := x },
    .optional "solver" (Reader.oneOf Solver.names) fun s x => { s with solver := x } ]

def reader [Number α] : Reader (AssociationSettings α) := Reader.record fields usual

def toJson [Number α] (s : AssociationSettings α) : Value :=
  let numbers := Value.ofList (Value.ofList (Value.ofNumber (α := α)))
  .obj [
    ("can_assign_matrix", .ofList (.ofList .bool) s.canAssign),
    ("max_dist_matrix", numbers s.maxDist),
    ("max_area_matrix", numbers s.maxArea),
    ("min_area_matrix", numbers s.minArea),
    ("max_rad_matrix", numbers s.maxRad),
    ("min_iou_matrix", numbers s.minOverlap),
    ("solver", .str s.solver.name)]

end AssociationSettings

namespace Gates

variable {α : Type} [Scalar α]

/-- A list of `n` items as a vector. -/
def vector? {β : Type} (n : Nat) (xs : List β) : Option (Vector β n) :=
  if h : xs.toArray.size = n then some ⟨xs.toArray, h⟩ else none

/-- A table with a row and a column for each class. -/
def table {β : Type} (name : String) (rows : List (List β)) : Except Error (Mat 8 8 β) :=
  match (rows.mapM (vector? 8)).bind (vector? 8) with
  | some rows => .ok (.ofRows rows)
  | none => .error (.invalidConfig (name ++ " must be 8x8"))

/-- The first reason why the entries of the tables are no sensible bounds. -/
def fault? (g : Gates α) : Option String :=
  if g.maxDist.toList.any fun d => !(Scalar.isFinite d && decide (0 < d)) then
    some "max_dist_matrix entries must be positive"
  else if (g.minArea.toList.zip g.maxArea.toList).any fun (lo, hi) =>
      Scalar.isNaN lo || Scalar.isNaN hi || decide (hi < lo) then
    some "min_area_matrix exceeds max_area_matrix"
  else if g.minOverlap.toList.any fun v => !(decide (0 ≤ v) && decide (v ≤ 1)) then
    some "min_iou_matrix entries must be in [0, 1]"
  else none

/-- The gates of some settings, if all tables have the right size and sensible entries. -/
def ofSettings (s : AssociationSettings α) : Except Error (Gates α) := do
  let canAssign ← table "can_assign_matrix" s.canAssign
  let maxDist ← table "max_dist_matrix" s.maxDist
  let maxArea ← table "max_area_matrix" s.maxArea
  let minArea ← table "min_area_matrix" s.minArea
  let maxRad ← table "max_rad_matrix" s.maxRad
  let minOverlap ← table "min_iou_matrix" s.minOverlap
  let g : Gates α := ⟨canAssign, maxDist, maxArea, minArea, maxRad, minOverlap⟩
  match g.fault? with
  | some reason => throw (.invalidConfig reason)
  | none => return g

end Gates

end TrackFusion
