/-!
# Track identities

* `TrackId`: a number of 128 bits, written as 32 hexadecimal digits in five groups.
* `IdStream`: the identities that are given out one after the other.
* `IdSupply`: those that have not been given out yet.
-/

namespace TrackFusion

/-- Identity of a track for its whole life. -/
structure TrackId where
  value : Nat
  deriving DecidableEq, Repr

namespace TrackId

/-- The 32 hexadecimal digits. -/
def digits (id : TrackId) : List Char :=
  let ds := Nat.toDigits 16 id.value
  List.replicate (32 - ds.length) '0' ++ ds

/-- The first eight digits: enough to tell tracks apart in a message. -/
def short (id : TrackId) : String := String.ofList (id.digits.take 8)

/-- Cuts a text into pieces of the given lengths. -/
def pieces : List Nat → List Char → List String
  | [], _ => []
  | n :: ns, cs => String.ofList (cs.take n) :: pieces ns (cs.drop n)

/-- All digits, in groups of 8, 4, 4, 4 and 12. -/
def text (id : TrackId) : String := "-".intercalate (pieces [8, 4, 4, 4, 12] id.digits)

def digitValue? (c : Char) : Option Nat :=
  if '0' ≤ c ∧ c ≤ '9' then some (c.toNat - '0'.toNat)
  else if 'a' ≤ c ∧ c ≤ 'f' then some (c.toNat - 'a'.toNat + 10)
  else if 'A' ≤ c ∧ c ≤ 'F' then some (c.toNat - 'A'.toNat + 10)
  else none

/-- The digits of a text in five groups, if the hyphens are in their places. -/
def ungroup? (cs : List Char) : Option (List Char) :=
  let places := cs.zipIdx.filterMap fun (c, i) => if c = '-' then some i else none
  if places = [8, 13, 18, 23] then some (cs.filter (· != '-')) else none

/-- The digits of a text: all in a row, or in groups. The groups may stand in braces, or after the
name of their namespace. -/
def digitsOf? (cs : List Char) : Option (List Char) :=
  if cs.length = 32 then some cs
  else
    match "urn:uuid:".toList.isPrefixOf? cs, cs with
    | some rest, _ => ungroup? rest
    | none, '{' :: rest => if rest.getLast? = some '}' then ungroup? rest.dropLast else none
    | none, cs => ungroup? cs

/-- Reads 32 digits. -/
def ofText? (s : String) : Option TrackId := do
  let cs ← digitsOf? s.toList
  guard (cs.length = 32)
  let ds ← cs.mapM digitValue?
  return ⟨ds.foldl (fun acc d => 16 * acc + d) 0⟩

instance : LE TrackId := ⟨fun a b => a.value ≤ b.value⟩
instance : DecidableLE TrackId := fun a b => inferInstanceAs (Decidable (a.value ≤ b.value))

end TrackId

/-- A stream of identities, of which no two are the same. Which ones they are is up to whoever draws
them; nothing else is known of them. -/
structure IdStream where
  nth : Nat → TrackId
  nth_inj : ∀ {m n}, nth m = nth n → m = n

namespace IdStream

/-- One identity after the other. They count in their leading digits, so that short forms differ,
too, and have 128 bits until all of those have been used. -/
def counting : IdStream where
  nth n := ⟨if n < Nat.pow 2 128 then n % Nat.pow 2 32 * Nat.pow 2 96 + n / Nat.pow 2 32 else n⟩
  nth_inj := by
    intro m n h
    have hvalue := congrArg TrackId.value h
    simp only [Nat.pow_eq, Nat.reducePow] at hvalue
    -- the leading 32 bits and the other 96 of them are those of the number, in the other order
    split at hvalue <;> split at hvalue <;> omega

end IdStream

/-- Where fresh identities come from: a stream of them, and how many have been given out. -/
structure IdSupply where
  stream : IdStream
  used : Nat

namespace IdSupply

def initial (stream : IdStream := .counting) : IdSupply := ⟨stream, 0⟩

/-- A fresh identity and the rest of the supply. -/
def fresh (s : IdSupply) : TrackId × IdSupply := (s.stream.nth s.used, ⟨s.stream, s.used + 1⟩)

end IdSupply

end TrackFusion
