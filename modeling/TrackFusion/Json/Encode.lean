import TrackFusion.Json.Literal
import TrackFusion.Json.Value

/-!
# JSON of numbers and lists
-/

namespace TrackFusion.Json.Value

def ofNumber {α : Type} [Number α] (x : α) : Value := .num (Number.text x)

def ofNat (n : Nat) : Value := .num (toString n)

def ofList {α : Type} (item : α → Value) (xs : List α) : Value := .arr (xs.map item)

end TrackFusion.Json.Value
