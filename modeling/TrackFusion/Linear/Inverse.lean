import TrackFusion.Linear.Matrix

/-!
# Inverse matrices

Matrices of up to four rows are inverted by their cofactors, and fail if their determinant is zero.
Larger ones are inverted by elimination, and fail if a pivot is zero.

* `Mat.inverse?`: the inverse, if there is one.
-/

namespace TrackFusion.Mat

variable {α : Type} [Scalar α] {n : Nat}

def inverse1? (a : Mat 1 1 α) : Option (Mat 1 1 α) :=
  if a 0 0 == 0 then none else some (ofFn fun _ _ => 1 / a 0 0)

def inverse2? (a : Mat 2 2 α) : Option (Mat 2 2 α) :=
  let det := a 0 0 * a 1 1 - a 1 0 * a 0 1
  if det == 0 then none
  else some (ofRows #v[#v[a 1 1 / det, -(a 0 1) / det], #v[-(a 1 0) / det, a 0 0 / det]])

def inverse3? (a : Mat 3 3 α) : Option (Mat 3 3 α) :=
  let c0 := a 1 1 * a 2 2 - a 2 1 * a 1 2
  let c1 := a 1 0 * a 2 2 - a 2 0 * a 1 2
  let c2 := a 1 0 * a 2 1 - a 2 0 * a 1 1
  let det := a 0 0 * c0 - a 0 1 * c1 + a 0 2 * c2
  if det == 0 then none
  else some (ofRows #v[
    #v[c0 / det, (a 0 2 * a 2 1 - a 2 2 * a 0 1) / det, (a 0 1 * a 1 2 - a 1 1 * a 0 2) / det],
    #v[-c1 / det, (a 0 0 * a 2 2 - a 2 0 * a 0 2) / det, (a 0 2 * a 1 0 - a 1 2 * a 0 0) / det],
    #v[c2 / det, (a 0 1 * a 2 0 - a 2 1 * a 0 0) / det, (a 0 0 * a 1 1 - a 1 0 * a 0 1) / det]])

/-- The indices other than `i`, in order. -/
def others (i : Fin 4) (k : Fin 3) : Fin 4 := if k.val < i.val then k.castSucc else k.succ

/-- The minor without row `i` and column `j`, with the sign of its place. -/
def cofactor (a : Mat 4 4 α) (i j : Fin 4) : α :=
  let e (r c : Fin 3) := a (others i r) (others j c)
  let minor := e 0 0 * e 1 1 * e 2 2 - e 0 0 * e 2 1 * e 1 2 - e 0 1 * e 1 0 * e 2 2
    + e 0 1 * e 2 0 * e 1 2 + e 0 2 * e 1 0 * e 2 1 - e 0 2 * e 2 0 * e 1 1
  if (i.val + j.val) % 2 = 0 then minor else -minor

def inverse4? (a : Mat 4 4 α) : Option (Mat 4 4 α) :=
  let c := (ofFn (cofactor a)).transpose
  let det := a 0 0 * c 0 0 + a 1 0 * c 0 1 + a 2 0 * c 0 2 + a 3 0 * c 0 3
  if det == 0 then none else some (c.scale (1 / det))

/-! ### Elimination -/

/-- The first row from `i` on whose entry in column `i` is largest in magnitude. -/
def pivotRow (a : Mat n n α) (i : Fin n) : Fin n :=
  (List.finRange n).foldl
    (fun best r =>
      if i < r ∧ Scalar.abs (a best i) < Scalar.abs (a r i) then r else best) i

def swapRows (a : Mat n n α) (i j : Fin n) : Mat n n α := ⟨a.rows.swap i.val j.val i.isLt j.isLt⟩

/-- Subtracts from each lower row the multiple of row `i` that clears its column `i`, in `a` and in
`b`. -/
def eliminate (ab : Mat n n α × Mat n n α) (i : Fin n) : Option (Mat n n α × Mat n n α) :=
  let piv := pivotRow ab.1 i
  if ab.1 piv i == 0 then none
  else
    let a := ab.1.swapRows i piv
    let b := ab.2.swapRows i piv
    let factor := Vec.ofFn fun r => a r i * (1 / a i i)
    -- column `i` of `a` is not written below the diagonal: nothing reads it there again
    some (ofFn fun r k => if i < r ∧ i < k then -(a i k) * factor r + a r k else a r k,
      ofFn fun r k => if i < r then -(b i k) * factor r + b r k else b r k)

/-- Solves for row `i`, from the last row up. What `a` has below the diagonal does not count. -/
def substitute (a : Mat n n α) (i : Fin n) (b : Mat n n α) : Mat n n α :=
  let row := Vec.ofFn fun k => b i k / a i i
  ofFn fun r k => if r = i then row k else if r < i then -(row k) * a r i + b r k else b r k

def inverseByElimination? (a : Mat n n α) : Option (Mat n n α) := do
  let (a, b) ← (List.finRange n).foldlM eliminate (a, 1)
  return (List.finRange n).foldr (substitute a) b

/-- The inverse of a matrix, unless a determinant or pivot that is divided by is zero. -/
def inverse? : {n : Nat} → Mat n n α → Option (Mat n n α)
  | 0, a => some a
  | 1, a => inverse1? a
  | 2, a => inverse2? a
  | 3, a => inverse3? a
  | 4, a => inverse4? a
  | _ + 5, a => inverseByElimination? a

end TrackFusion.Mat
