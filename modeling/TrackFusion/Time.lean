import TrackFusion.Decimal.Rounding

/-!
# Time stamps

A stamp is a number of seconds on one clock. The difference of two stamps is a number of seconds.
-/

namespace TrackFusion

/-- A point in time. -/
structure Time (α : Type) where
  seconds : α
  deriving BEq, DecidableEq

namespace Time

variable {α : Type} [Scalar α]

/-- Seconds from the second stamp to the first. -/
instance : HSub (Time α) (Time α) α := ⟨fun a b => a.seconds - b.seconds⟩
instance : HAdd (Time α) α (Time α) := ⟨fun t d => ⟨t.seconds + d⟩⟩
instance : HSub (Time α) α (Time α) := ⟨fun t d => ⟨t.seconds - d⟩⟩
instance : LT (Time α) := ⟨fun a b => a.seconds < b.seconds⟩
instance : LE (Time α) := ⟨fun a b => a.seconds ≤ b.seconds⟩
instance : DecidableLT (Time α) := fun a b => inferInstanceAs (Decidable (a.seconds < b.seconds))
instance : DecidableLE (Time α) := fun a b => inferInstanceAs (Decidable (a.seconds ≤ b.seconds))

/-- The later of two stamps, the first one if neither is later. -/
def later (a b : Time α) : Time α := if a < b then b else a

def ofNanoseconds (n : Int) : Time α := ⟨Scalar.ofInt n * 1e-9⟩

/-- Seconds with six places. -/
def text (t : Time Float) : String := Decimal.fixed 6 t.seconds ++ "s"

end Time

end TrackFusion
