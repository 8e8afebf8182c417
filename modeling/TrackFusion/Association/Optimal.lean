import TrackFusion.Association.Assignment
import TrackFusion.Error

/-!
# Optimal assignment

An assignment of least total cost. The rows are added one after the other; for each of them the
shortest way to a free column is searched, with potentials of rows and columns that keep all reduced
costs nonnegative, and the columns on the way are exchanged along it.

* `Search`: the state of such a search, with its steps `relax`, `nearest`, `shift`, `visit`, and
  `run`, which takes them.
* `Matching.addRow`: one row more.
* `minimalCost`: the assignment for a table of any shape.
-/

namespace TrackFusion.Association

variable {α : Type} [Scalar α] {n : Nat}

/-- Whether `x` is less than a distance. Nothing stands for an infinite one. -/
def below (x : α) : Option α → Bool
  | none => Scalar.isFinite x || decide (x < 0)
  | some d => decide (x < d)

/-- Potentials of rows and columns, and the row that each column belongs to so far. -/
structure Matching (n : Nat) (α : Type) where
  u : Vec n α
  v : Vec n α
  rowOf : Vec n (Option (Fin n))

/-- A search for a way from a row to a free column. -/
structure Search (n : Nat) (α : Type) where
  u : Vec n α
  v : Vec n α
  /-- How far every column is, if it can be reached. -/
  reach : Vec n (Option α)
  /-- The column before on the way there; the way starts with columns that have none. -/
  way : Vec n (Option (Fin n))
  /-- Columns that have been visited. -/
  used : Vec n Bool
  /-- Rows that have been visited. -/
  seen : Vec n Bool

namespace Search

/-- The search that starts at a row. -/
def start (m : Matching n α) (root : Fin n) : Search n α where
  u := m.u
  v := m.v
  reach := .ofFn fun _ => none
  way := .ofFn fun _ => none
  used := .ofFn fun _ => false
  seen := .ofFn fun i => decide (i = root)

/-- Cost of a cell less the potentials of its row and its column. -/
def reduced (s : Search n α) (c : Mat n n α) (i j : Fin n) : α := c i j - s.u i - s.v j

/-- Looks at all columns from a row that was reached by way of the column `from?`. -/
def relax (s : Search n α) (c : Mat n n α) (i : Fin n) (from? : Option (Fin n)) : Search n α :=
  let better := Vec.ofFn fun j => !s.used j && below (s.reduced c i j) (s.reach j)
  { s with
    reach := .ofFn fun j => if better j then some (s.reduced c i j) else s.reach j
    way := .ofFn fun j => if better j then from? else s.way j }

/-- The nearest column that has not been visited, the first one of several. -/
def nearest (s : Search n α) : Option (α × Fin n) :=
  (List.finRange n).foldl
    (fun best j =>
      match s.reach j with
      | none => best
      | some d => if !s.used j && below d (best.map Prod.fst) then some (d, j) else best)
    none

/-- Shifts the potentials of all that has been visited, so that a column at distance `d` comes to
distance zero. -/
def shift (s : Search n α) (d : α) : Search n α :=
  { s with
    u := .ofFn fun i => if s.seen i then s.u i + d else s.u i
    v := .ofFn fun j => if s.used j then s.v j - d else s.v j
    reach := .ofFn fun j => if s.used j then s.reach j else (s.reach j).map (· - d) }

/-- Visits a column. -/
def visit (s : Search n α) (j : Fin n) : Search n α := { s with used := s.used.set j true }

/-- Visits a row. -/
def visitRow (s : Search n α) (i : Fin n) : Search n α := { s with seen := s.seen.set i true }

/-- How a search ends without a column in reach, which takes sums that leave the range of the
scalars: at the first column, if that is free. The distance is beyond all numbers. -/
def stranded (s : Search n α) (rowOf : Vec n (Option (Fin n))) : Option (Search n α × Fin n) :=
  match (List.finRange n).head? with
  | none => none
  | some j => if (rowOf j).isSome then none else some ((s.shift (1 / 0)).visit j, j)

/-- Goes on from a row to the nearest column until that is a free one. Every step visits another
column, so that `fuel` steps are enough for as many columns. -/
def run (c : Mat n n α) (rowOf : Vec n (Option (Fin n))) :
    (fuel : Nat) → Search n α → Fin n → Option (Fin n) → Option (Search n α × Fin n)
  | 0, _, _, _ => none
  | fuel + 1, s, i, from? =>
    let s := s.relax c i from?
    match s.nearest with
    | none => s.stranded rowOf
    | some (d, j) =>
      let s := (s.shift d).visit j
      match rowOf j with
      | none => some (s, j)
      | some i => run c rowOf fuel (s.visitRow i) i (some j)

end Search

namespace Matching

/-- No row has a column yet. -/
def initial : Matching n α := ⟨0, 0, .ofFn fun _ => none⟩

/-- Moves the rows along the way to the column `j` by one column each; the first column of the way
gets the row `root`. A way has at most as many columns as there are. -/
def exchange (way : Vec n (Option (Fin n))) (root : Fin n) :
    (fuel : Nat) → Vec n (Option (Fin n)) → Fin n → Vec n (Option (Fin n))
  | 0, rowOf, _ => rowOf
  | fuel + 1, rowOf, j =>
    match way j with
    | none => rowOf.set j (some root)
    | some before => exchange way root fuel (rowOf.set j (rowOf before)) before

/-- Finds a column for one row more. -/
def addRow (c : Mat n n α) (m : Matching n α) (root : Fin n) : Matching n α :=
  match Search.run c m.rowOf n (.start m root) root none with
  | none => m
  | some (s, j) => ⟨s.u, s.v, exchange s.way root n m.rowOf j⟩

/-- Finds columns for all rows. -/
def complete (c : Mat n n α) : Matching n α := (List.finRange n).foldl (addRow c) initial

/-- The cells of the given table, in the order of its columns. -/
def toAssignment {rows cols : Nat} (m : Matching n α) (cost : Mat rows cols α) :
    Assignment rows cols α :=
  (List.finRange n).foldl
    (fun a j =>
      match m.rowOf j with
      | none => a
      | some i =>
        if h : i.val < rows ∧ j.val < cols then
          ⟨a.column.set ⟨i, h.1⟩ (some ⟨j, h.2⟩), a.total + cost ⟨i, h.1⟩ ⟨j, h.2⟩⟩
        else a)
    .empty

end Matching

/-- The table filled up to a square with cells that cost nothing. -/
def padded {rows cols : Nat} (cost : Mat rows cols α) :
    Mat (Nat.max rows cols) (Nat.max rows cols) α :=
  .ofFn fun i j => if h : i.val < rows ∧ j.val < cols then cost ⟨i, h.1⟩ ⟨j, h.2⟩ else 0

/-- An assignment of as many cells as possible, and of least total cost among those. It fails if a
cost is not finite. -/
def minimalCost {rows cols : Nat} (cost : Mat rows cols α) :
    Except Error (Assignment rows cols α) :=
  if rows = 0 ∨ cols = 0 then .ok .empty
  else if cost.isFinite then .ok ((Matching.complete (padded cost)).toAssignment cost)
  else .error .assignmentFailed

end TrackFusion.Association
