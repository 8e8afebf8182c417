import TrackFusion.Error
import TrackFusion.Linear.Inverse

/-!
# Kalman filter

A linear filter for a state of any size: it holds the mean and the covariance of the state. The
dynamics and the measurements come from outside.

* `Kalman.predict`: the estimate carried on by the dynamics.
* `Kalman.correct`: the estimate corrected by a measurement, in Joseph form.
-/

namespace TrackFusion

/-- Mean and covariance of a state of size `n`. -/
structure Kalman (n : Nat) (α : Type) where
  mean : Vec n α
  cov : Mat n n α
  deriving BEq, DecidableEq

namespace Kalman

variable {α : Type} [Scalar α] {m n : Nat}

/-- The estimate after a step of the dynamics: `next` is the new mean, `a` the derivative of the
dynamics at the old one and `q` the noise of the step. Nothing if the result is not finite. -/
def predict (f : Kalman n α) (next : Vec n α) (a q : Mat n n α) : Option (Kalman n α) :=
  let cov := (a.congruence f.cov + q).symmetrize
  if next.isFinite && cov.isFinite then some ⟨next, cov⟩ else none

/-- The estimate after a step of linear dynamics. -/
def predictLinear (f : Kalman n α) (a q : Mat n n α) : Option (Kalman n α) :=
  f.predict (a * f.mean) a q

/-- What a measurement `y` differs by from what was to be expected. -/
def innovation (f : Kalman n α) (y : Vec m α) (c : Mat m n α) : Vec m α := y - c * f.mean

/-- Covariance of the innovation. -/
def innovationCov (f : Kalman n α) (c : Mat m n α) (r : Mat m m α) : Mat m m α :=
  c.congruence f.cov + r

/-- The weight of the innovation, unless its covariance has no inverse. -/
def gain? (f : Kalman n α) (c : Mat m n α) (r : Mat m m α) : Option (Mat n m α) :=
  (f.innovationCov c r).inverse?.map fun s => f.cov * c.transpose * s

/-- Covariance after a correction with gain `k`: `(1 - k c) p (1 - k c)ᵀ + k r kᵀ`. -/
def joseph (p : Mat n n α) (k : Mat n m α) (c : Mat m n α) (r : Mat m m α) : Mat n n α :=
  (1 - k * c).congruence p + k.congruence r

/-- The estimate after the measurement `y = c x` with noise `r`. It fails if the covariance of the
innovation has no inverse or if the new mean is not finite. -/
def correct (f : Kalman n α) (y : Vec m α) (c : Mat m n α) (r : Mat m m α) :
    Except Error (Kalman n α) :=
  match f.gain? c r with
  | none => .error .singularMatrix
  | some k =>
    let mean := f.mean + k * f.innovation y c
    if mean.isFinite then .ok ⟨mean, (joseph f.cov k c r).symmetrize⟩
    else .error .singularMatrix

/-- Reads off the first `m` entries of a state. -/
def observeFirst (m n : Nat) : Mat m n α := .ofFn fun i j => if i.val = j.val then 1 else 0

end Kalman

end TrackFusion
