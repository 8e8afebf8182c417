import TrackFusion.Proofs.Differences
import TrackFusion.Proofs.Extended

/-!
# Operands of finite results

What is infinite or undefined does not vanish from a sum, a difference or a product: a finite result
has finite operands. Rounding leaves that as it is, but it can make finite operands overflow.

* `StrictScalar`: scalars with finite results of finite operands only, such as doubles.
* `UnboundedScalar`: those in which nothing overflows, too.
* `isFinite_of_sum`, `isFinite_sum`: sums of any length.
* `Mat.isFinite_of_congruence`, `Mat.isFinite_congruence`: covariances that are carried along.
-/

namespace TrackFusion

/-- Scalars with finite results of finite operands only. -/
class StrictScalar (α : Type) [Scalar α] : Prop where
  isFinite_of_add {a b : α} : Scalar.isFinite (a + b) = true →
    Scalar.isFinite a = true ∧ Scalar.isFinite b = true
  isFinite_of_sub {a b : α} : Scalar.isFinite (a - b) = true →
    Scalar.isFinite a = true ∧ Scalar.isFinite b = true
  isFinite_of_mul {a b : α} : Scalar.isFinite (a * b) = true →
    Scalar.isFinite a = true ∧ Scalar.isFinite b = true

/-- Scalars that do not overflow either. -/
class UnboundedScalar (α : Type) [Scalar α] : Prop extends StrictScalar α where
  isFinite_zero : Scalar.isFinite (0 : α) = true
  isFinite_one : Scalar.isFinite (1 : α) = true
  isFinite_ofScientific (m : ℕ) (s : Bool) (e : ℕ) :
    Scalar.isFinite (OfScientific.ofScientific m s e : α) = true
  isFinite_add {a b : α} : Scalar.isFinite a = true → Scalar.isFinite b = true →
    Scalar.isFinite (a + b) = true
  isFinite_sub {a b : α} : Scalar.isFinite a = true → Scalar.isFinite b = true →
    Scalar.isFinite (a - b) = true
  isFinite_mul {a b : α} : Scalar.isFinite a = true → Scalar.isFinite b = true →
    Scalar.isFinite (a * b) = true

/-! ### Exact arithmetic -/

namespace Extended

variable {α : Type} [ExactScalar α] {a b : Extended α}

theorem isFinite_of_add (h : Scalar.isFinite (a + b) = true) :
    Scalar.isFinite a = true ∧ Scalar.isFinite b = true := by
  obtain ⟨x, hx⟩ := isFinite_iff.1 h
  cases a with
  | number y =>
    cases b with
    | number z => exact ⟨rfl, rfl⟩
    | infinite s => cases hx
    | undefined => cases hx
  | infinite s =>
    cases b with
    | number z => cases hx
    | infinite t => cases s <;> cases t <;> cases hx
    | undefined => cases hx
  | undefined => cases hx

theorem isFinite_of_neg (h : Scalar.isFinite (neg a) = true) : Scalar.isFinite a = true := by
  cases a with
  | number y => rfl
  | infinite s => cases h
  | undefined => cases h

theorem isFinite_of_mul (h : Scalar.isFinite (a * b) = true) :
    Scalar.isFinite a = true ∧ Scalar.isFinite b = true := by
  have hmul : a * b = mul a b := rfl
  obtain ⟨x, hx⟩ := isFinite_iff.1 h
  rw [hmul] at hx
  cases a with
  | number y =>
    cases b with
    | number z => exact ⟨rfl, rfl⟩
    | infinite s =>
      rw [mul] at hx
      split at hx <;> cases hx
    | undefined => cases hx
  | infinite s =>
    cases b with
    | number z =>
      rw [mul] at hx
      split at hx <;> cases hx
    | infinite t => cases hx
    | undefined => cases hx
  | undefined => cases hx

instance : UnboundedScalar (Extended α) where
  isFinite_of_add := isFinite_of_add
  isFinite_of_sub h := (isFinite_of_add h).imp_right isFinite_of_neg
  isFinite_of_mul := isFinite_of_mul
  isFinite_zero := rfl
  isFinite_one := rfl
  isFinite_ofScientific _ _ _ := rfl
  isFinite_add ha hb := by
    obtain ⟨x, rfl⟩ := isFinite_iff.1 ha
    obtain ⟨y, rfl⟩ := isFinite_iff.1 hb
    rfl
  isFinite_sub ha hb := by
    obtain ⟨x, rfl⟩ := isFinite_iff.1 ha
    obtain ⟨y, rfl⟩ := isFinite_iff.1 hb
    rfl
  isFinite_mul ha hb := by
    obtain ⟨x, rfl⟩ := isFinite_iff.1 ha
    obtain ⟨y, rfl⟩ := isFinite_iff.1 hb
    rfl

end Extended

/-! ### Doubles -/

namespace Binary64

open Float.Model (Format UnpackedFloat)
open Float.Model.UnpackedFloat

/-- Packing makes nothing finite. -/
theorem isFinite_of_pack {u : UnpackedFloat}
    (h : (unpack Format.binary64 (pack Format.binary64 u)).isFinite = true) :
    u.isFinite = true := by
  cases u with
  | notANumber => exact h
  | infinity s => cases s <;> exact h
  | zero s => rfl
  | finite s m e hm => rfl

/-- The operations on doubles before rounding. -/
inductive Operation : (UnpackedFloat → UnpackedFloat → UnpackedFloat) → Prop
  | add : Operation (UnpackedFloat.add Format.binary64)
  | sub : Operation (UnpackedFloat.sub Format.binary64)
  | mul : Operation (UnpackedFloat.mul Format.binary64)

theorem Operation.isFinite_of {op : UnpackedFloat → UnpackedFloat → UnpackedFloat}
    (hop : Operation op) {a b : UnpackedFloat} (h : (op a b).isFinite = true) :
    a.isFinite = true ∧ b.isFinite = true := by
  cases a with
  | notANumber => cases hop <;> cases h
  | infinity s =>
    cases b with
    | infinity t => cases hop <;> cases s <;> cases t <;> cases h
    | _ => cases hop <;> cases h
  | zero s =>
    cases b with
    | notANumber => cases hop <;> cases h
    | infinity t => cases hop <;> cases h
    | _ => exact ⟨rfl, rfl⟩
  | finite s m e hm =>
    cases b with
    | notANumber => cases hop <;> cases h
    | infinity t => cases hop <;> cases h
    | _ => exact ⟨rfl, rfl⟩

end Binary64

instance : StrictScalar Float where
  isFinite_of_add h := Binary64.Operation.add.isFinite_of (Binary64.isFinite_of_pack h)
  isFinite_of_sub h := Binary64.Operation.sub.isFinite_of (Binary64.isFinite_of_pack h)
  isFinite_of_mul h := Binary64.Operation.mul.isFinite_of (Binary64.isFinite_of_pack h)

/-! ### Sums -/

section strict

variable {α : Type} [Scalar α] [StrictScalar α] {m n : ℕ}

open StrictScalar

theorem isFinite_of_foldl {k : ℕ} {f : Fin k → α} {x : α}
    (h : Scalar.isFinite (Fin.foldl k (fun acc i => acc + f i) x) = true) :
    Scalar.isFinite x = true ∧ ∀ i, Scalar.isFinite (f i) = true := by
  induction k generalizing x with
  | zero =>
    rw [Fin.foldl_zero] at h
    exact ⟨h, fun i => i.elim0⟩
  | succ k ih =>
    rw [Fin.foldl_succ] at h
    obtain ⟨hfirst, hrest⟩ := ih h
    obtain ⟨hx, hzero⟩ := isFinite_of_add hfirst
    exact ⟨hx, Fin.cases hzero hrest⟩

theorem isFinite_of_sum {f : Fin n → α} (h : Scalar.isFinite (sum n f) = true) (i : Fin n) :
    Scalar.isFinite (f i) = true := by
  cases n with
  | zero => exact i.elim0
  | succ n =>
    obtain ⟨hfirst, hrest⟩ := isFinite_of_foldl h
    exact Fin.cases hfirst hrest i

namespace Mat

theorem isFinite_of_mul_apply {a : Mat m n α} {p : ℕ} {b : Mat n p α} {i : Fin m} {j : Fin p}
    (h : Scalar.isFinite ((a * b) i j) = true) (k : Fin n) :
    Scalar.isFinite (a i k) = true ∧ Scalar.isFinite (b k j) = true := by
  rw [mul_apply] at h
  exact isFinite_of_mul (isFinite_of_sum h k)

/-- **An entry of a covariance that is carried along** depends on all of them, and on two rows of
the matrix that carries them. -/
theorem isFinite_of_congruence {a : Mat m n α} {c : Mat n n α} {i j : Fin m}
    (h : Scalar.isFinite (a.congruence c i j) = true) (k l : Fin n) :
    Scalar.isFinite (a i k) = true ∧ Scalar.isFinite (c k l) = true ∧
      Scalar.isFinite (a j l) = true := by
  obtain ⟨hac, hal⟩ := isFinite_of_mul_apply h l
  obtain ⟨hak, hc⟩ := isFinite_of_mul_apply hac k
  rw [transpose_apply] at hal
  exact ⟨hak, hc, hal⟩

/-- An entry of a sum that is made symmetric depends on those of both terms. -/
theorem isFinite_of_symmetrize_add {a b : Mat n n α} {i j : Fin n}
    (h : Scalar.isFinite ((a + b).symmetrize i j) = true) :
    Scalar.isFinite (a i j) = true ∧ Scalar.isFinite (b i j) = true := by
  rw [symmetrize, scale_apply] at h
  obtain ⟨hmean, -⟩ := isFinite_of_mul h
  rw [add_apply] at hmean
  obtain ⟨hsum, -⟩ := isFinite_of_add hmean
  rw [add_apply] at hsum
  exact isFinite_of_add hsum

end Mat

end strict

section unbounded

variable {α : Type} [Scalar α] [UnboundedScalar α] {m n : ℕ}

open UnboundedScalar

theorem isFinite_foldl {k : ℕ} {f : Fin k → α} {x : α} (hx : Scalar.isFinite x = true)
    (hf : ∀ i, Scalar.isFinite (f i) = true) :
    Scalar.isFinite (Fin.foldl k (fun acc i => acc + f i) x) = true := by
  induction k generalizing x with
  | zero => rwa [Fin.foldl_zero]
  | succ k ih =>
    rw [Fin.foldl_succ]
    exact ih (isFinite_add hx (hf 0)) fun i => hf i.succ

theorem isFinite_sum {f : Fin n → α} (hf : ∀ i, Scalar.isFinite (f i) = true) :
    Scalar.isFinite (sum n f) = true := by
  cases n with
  | zero => exact isFinite_zero
  | succ n => exact isFinite_foldl (hf 0) fun i => hf i.succ

namespace Mat

theorem isFinite_add {a b : Mat m n α} (ha : a.isFinite = true) (hb : b.isFinite = true) :
    (a + b).isFinite = true := by
  rw [isFinite_iff] at *
  intro i j
  rw [add_apply]
  exact UnboundedScalar.isFinite_add (ha i j) (hb i j)

theorem isFinite_sub {a b : Mat m n α} (ha : a.isFinite = true) (hb : b.isFinite = true) :
    (a - b).isFinite = true := by
  rw [isFinite_iff] at *
  intro i j
  rw [sub_apply]
  exact UnboundedScalar.isFinite_sub (ha i j) (hb i j)

theorem isFinite_mul {p : ℕ} {a : Mat m n α} {b : Mat n p α} (ha : a.isFinite = true)
    (hb : b.isFinite = true) : (a * b).isFinite = true := by
  rw [isFinite_iff] at *
  intro i j
  rw [mul_apply]
  exact isFinite_sum fun k => UnboundedScalar.isFinite_mul (ha i k) (hb k j)

theorem isFinite_one : (1 : Mat n n α).isFinite = true := by
  rw [isFinite_iff]
  intro i j
  rw [one_apply]
  split
  · exact UnboundedScalar.isFinite_one
  · exact isFinite_zero

omit [UnboundedScalar α] in
theorem isFinite_transpose {a : Mat m n α} (ha : a.isFinite = true) :
    a.transpose.isFinite = true := by
  rw [isFinite_iff] at *
  intro i j
  rw [transpose_apply]
  exact ha j i

theorem isFinite_congruence {a : Mat m n α} {c : Mat n n α} (ha : a.isFinite = true)
    (hc : c.isFinite = true) : (a.congruence c).isFinite = true :=
  isFinite_mul (isFinite_mul ha hc) (isFinite_transpose ha)

theorem isFinite_symmetrize {a : Mat n n α} (ha : a.isFinite = true) :
    a.symmetrize.isFinite = true := by
  have hsum := isFinite_add ha (isFinite_transpose ha)
  rw [isFinite_iff] at *
  intro i j
  rw [symmetrize, scale_apply]
  exact UnboundedScalar.isFinite_mul (hsum i j) (isFinite_ofScientific ..)

end Mat

end unbounded

end TrackFusion
