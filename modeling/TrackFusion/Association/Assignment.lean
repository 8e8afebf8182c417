import TrackFusion.Linear.Matrix

/-!
# Assignments

* `Assignment`: which row of a table goes with which column.
* `IndexMap`, `Pairing`: the same between the tracks and the detections of a batch, either way.
-/

namespace TrackFusion

/-- A choice of at most one column for each of `m` rows, and the sum of the chosen cells. -/
structure Assignment (m n : Nat) (α : Type) where
  column : Vec m (Option (Fin n))
  total : α

namespace Assignment

variable {α : Type} {m n : Nat}

def empty [Zero α] : Assignment m n α := ⟨.ofFn fun _ => none, 0⟩

/-- Rows with their column, in the order of the rows. -/
def pairs (a : Assignment m n α) : List (Fin m × Fin n) :=
  (List.finRange m).filterMap fun i => (a.column i).map fun j => (i, j)

/-- How many rows have a column. -/
def size (a : Assignment m n α) : Nat := a.pairs.length

end Assignment

/-- A finite map between indices. Of several entries for one index the first one counts. -/
structure IndexMap where
  entries : List (Nat × Nat)
  deriving DecidableEq, Repr

namespace IndexMap

def empty : IndexMap := ⟨[]⟩

/-- The map with another value for `i`. -/
def insert (f : IndexMap) (i j : Nat) : IndexMap := ⟨(i, j) :: f.entries⟩

def get? (f : IndexMap) (i : Nat) : Option Nat := f.entries.lookup i

def contains (f : IndexMap) (i : Nat) : Bool := (f.get? i).isSome

@[simp] theorem get?_empty (i : Nat) : empty.get? i = none := rfl

theorem get?_insert (f : IndexMap) (i j k : Nat) :
    (f.insert i j).get? k = if k = i then some j else f.get? k := by
  by_cases h : k = i
  · simp [get?, insert, h]
  · simp [get?, insert, List.lookup_cons, h, beq_false_of_ne h]

end IndexMap

/-- Which track goes with which detection. -/
structure Pairing where
  /-- From tracks to detections. -/
  direct : IndexMap
  /-- From detections to tracks. -/
  reverse : IndexMap
  deriving DecidableEq, Repr

namespace Pairing

def empty : Pairing := ⟨.empty, .empty⟩

def insert (p : Pairing) (track detection : Nat) : Pairing :=
  ⟨p.direct.insert track detection, p.reverse.insert detection track⟩

end Pairing

end TrackFusion
