import TrackFusion.Association.Assignment

/-!
# Greedy assignment

* `bestFirst`: takes the cells of a table from the highest score down.
-/

namespace TrackFusion.Association

variable {α : Type} [Scalar α] {m n : Nat}

/-- A cell of a table with its score. -/
structure Cell (m n : Nat) (α : Type) where
  row : Fin m
  col : Fin n
  score : α

/-- The order in which cells are taken: higher scores first, then lower rows, then lower columns. -/
def Cell.precedes (a b : Cell m n α) : Bool :=
  let o := (Scalar.order b.score a.score).then
    ((compare a.row.val b.row.val).then (compare a.col.val b.col.val))
  o != .gt

/-- The cells that may be taken. -/
def candidates (score : Mat m n α) (minScore : α) : List (Cell m n α) :=
  (List.finRange m).flatMap fun i =>
    (List.finRange n).filterMap fun j =>
      let s := score i j
      if Scalar.isFinite s && decide (minScore ≤ s) then some ⟨i, j, s⟩ else none

/-- Takes a cell, if its row and its column are free. -/
def take (a : Assignment m n α × Vec n Bool) (c : Cell m n α) : Assignment m n α × Vec n Bool :=
  if (a.1.column c.row).isSome || a.2 c.col then a
  else (⟨a.1.column.set c.row (some c.col), a.1.total + c.score⟩, a.2.set c.col true)

/-- The assignment that takes the cells of at least `minScore` from the highest score down. -/
def bestFirst (score : Mat m n α) (minScore : α) : Assignment m n α :=
  (((candidates score minScore).mergeSort Cell.precedes).foldl take
    (.empty, .ofFn fun _ => false)).1

end TrackFusion.Association
