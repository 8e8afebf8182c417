import TrackFusion.Scalar

/-!
# Vectors and matrices

Vectors and matrices of fixed size. A matrix is a table of its entries and is read like a function
of the row and the column.

* `Place`: names for the first few indices.
* `Vec`, `Mat`: the types, with `ofFn` to build and application to read (`Vec.ofFn_apply`,
  `Mat.ofFn_apply`, `Mat.ext`).
* `sum`: adds from the first index on.
* sum, difference, product and transpose of matrices; `Mat.symmetrize`.
-/

namespace TrackFusion

/-- A vector of `n` entries. -/
structure Vec (n : Nat) (α : Type) where
  entries : Vector α n
  deriving BEq, DecidableEq

/-- A matrix of `m` rows and `n` columns. -/
structure Mat (m n : Nat) (α : Type) where
  rows : Vector (Vector α n) m
  deriving BEq, DecidableEq

/-! ### Places

The first places of a vector that is long enough. -/

namespace Place

variable {n : Nat}

abbrev first : Fin (n + 1) := 0
abbrev second : Fin (n + 2) := 1
abbrev third : Fin (n + 3) := 2
abbrev fourth : Fin (n + 4) := 3
abbrev fifth : Fin (n + 5) := 4

end Place

variable {α : Type} {m n p : Nat}

namespace Vec

def ofFn (f : Fin n → α) : Vec n α := ⟨Vector.ofFn f⟩

def get (v : Vec n α) (i : Fin n) : α := v.entries[i]

instance : CoeFun (Vec n α) fun _ => Fin n → α := ⟨get⟩

@[simp] theorem ofFn_apply (f : Fin n → α) (i : Fin n) : ofFn f i = f i := by
  simp [ofFn, get]

/-- The vector with another value for some entry. -/
def set (v : Vec n α) (i : Fin n) (x : α) : Vec n α := ⟨v.entries.set i x⟩

theorem set_apply (v : Vec n α) (i j : Fin n) (x : α) :
    v.set i x j = if i = j then x else v j := by
  simp [set, get, Vector.getElem_set, Fin.ext_iff]

def toList (v : Vec n α) : List α := v.entries.toList

@[ext] theorem ext {v w : Vec n α} (h : ∀ i, v i = w i) : v = w := by
  obtain ⟨v⟩ := v
  obtain ⟨w⟩ := w
  congr 1
  apply Vector.ext
  intro i hi
  exact h ⟨i, hi⟩

theorem set_self (v : Vec n α) (i : Fin n) : v.set i (v i) = v := by
  ext j
  rw [set_apply]
  split
  · next h => rw [h]
  · rfl

end Vec

namespace Mat

def ofFn (f : Fin m → Fin n → α) : Mat m n α := ⟨Vector.ofFn fun i => Vector.ofFn (f i)⟩

def get (a : Mat m n α) (i : Fin m) (j : Fin n) : α := a.rows[i][j]

instance : CoeFun (Mat m n α) fun _ => Fin m → Fin n → α := ⟨get⟩

@[simp] theorem ofFn_apply (f : Fin m → Fin n → α) (i : Fin m) (j : Fin n) :
    ofFn f i j = f i j := by
  simp [ofFn, get]

@[ext] theorem ext {a b : Mat m n α} (h : ∀ i j, a i j = b i j) : a = b := by
  obtain ⟨a⟩ := a
  obtain ⟨b⟩ := b
  congr 1
  apply Vector.ext
  intro i hi
  apply Vector.ext
  intro j hj
  exact h ⟨i, hi⟩ ⟨j, hj⟩

/-- A table of rows. -/
def ofRows (rows : Vector (Vector α n) m) : Mat m n α := ⟨rows⟩

def transpose (a : Mat m n α) : Mat n m α := ofFn fun i j => a j i

@[simp] theorem transpose_apply (a : Mat m n α) (i : Fin n) (j : Fin m) :
    a.transpose i j = a j i := ofFn_apply ..

/-- The entries from left to right and from top to bottom. -/
def toList (a : Mat m n α) : List α := a.rows.toList.flatMap Vector.toList

end Mat

variable [Scalar α]

/-- The sum of finitely many scalars, added from the first on. -/
@[specialize] def sum : (n : Nat) → (Fin n → α) → α
  | 0, _ => 0
  | n + 1, f => Fin.foldl n (fun acc i => acc + f i.succ) (f 0)

namespace Vec

instance : Zero (Vec n α) := ⟨ofFn fun _ => 0⟩
instance : Add (Vec n α) := ⟨fun v w => ofFn fun i => v i + w i⟩
instance : Sub (Vec n α) := ⟨fun v w => ofFn fun i => v i - w i⟩

@[simp] theorem zero_apply (i : Fin n) : (0 : Vec n α) i = 0 := ofFn_apply ..
@[simp] theorem add_apply (v w : Vec n α) (i : Fin n) : (v + w) i = v i + w i := ofFn_apply ..
@[simp] theorem sub_apply (v w : Vec n α) (i : Fin n) : (v - w) i = v i - w i := ofFn_apply ..

def isFinite (v : Vec n α) : Bool := v.entries.all Scalar.isFinite

end Vec

namespace Mat

instance : Zero (Mat m n α) := ⟨ofFn fun _ _ => 0⟩
instance : One (Mat n n α) := ⟨ofFn fun i j => if i = j then 1 else 0⟩
instance : Add (Mat m n α) := ⟨fun a b => ofFn fun i j => a i j + b i j⟩
instance : Sub (Mat m n α) := ⟨fun a b => ofFn fun i j => a i j - b i j⟩
instance : HMul (Mat m n α) (Mat n p α) (Mat m p α) :=
  ⟨fun a b => ofFn fun i j => sum n fun k => a i k * b k j⟩
instance : HMul (Mat m n α) (Vec n α) (Vec m α) :=
  ⟨fun a v => Vec.ofFn fun i => sum n fun k => a i k * v k⟩

@[simp] theorem zero_apply (i : Fin m) (j : Fin n) : (0 : Mat m n α) i j = 0 := ofFn_apply ..

@[simp] theorem one_apply (i j : Fin n) : (1 : Mat n n α) i j = if i = j then 1 else 0 :=
  ofFn_apply ..

@[simp] theorem add_apply (a b : Mat m n α) (i : Fin m) (j : Fin n) :
    (a + b) i j = a i j + b i j := ofFn_apply ..

@[simp] theorem sub_apply (a b : Mat m n α) (i : Fin m) (j : Fin n) :
    (a - b) i j = a i j - b i j := ofFn_apply ..

@[simp] theorem mul_apply (a : Mat m n α) (b : Mat n p α) (i : Fin m) (j : Fin p) :
    (a * b) i j = sum n fun k => a i k * b k j := ofFn_apply ..

@[simp] theorem mulVec_apply (a : Mat m n α) (v : Vec n α) (i : Fin m) :
    (a * v) i = sum n fun k => a i k * v k := Vec.ofFn_apply ..

def scale (a : Mat m n α) (c : α) : Mat m n α := ofFn fun i j => a i j * c

@[simp] theorem scale_apply (a : Mat m n α) (c : α) (i : Fin m) (j : Fin n) :
    a.scale c i j = a i j * c := ofFn_apply ..

def diagonal (d : Vec n α) : Mat n n α := ofFn fun i j => if i = j then d i else 0

@[simp] theorem diagonal_apply (d : Vec n α) (i j : Fin n) :
    diagonal d i j = if i = j then d i else 0 := ofFn_apply ..

/-- The mean of a matrix and its transpose. -/
def symmetrize (a : Mat n n α) : Mat n n α := (a + a.transpose).scale 0.5

/-- `a` carries a covariance along a linear map: `a * c * aᵀ`. -/
def congruence (a : Mat m n α) (c : Mat n n α) : Mat m m α := a * c * a.transpose

def isFinite (a : Mat m n α) : Bool := a.rows.all fun r => r.all Scalar.isFinite

end Mat

end TrackFusion
