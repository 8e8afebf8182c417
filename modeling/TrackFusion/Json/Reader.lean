import TrackFusion.Json.Literal
import TrackFusion.Json.Value

/-!
# Reading JSON

Readers take a text apart from left to right and stop at its first fault.

* `Json.Fault`: what can be wrong with a text.
* `Json.Reader`: a reader of values of one type. There are readers for numbers, words, lists and
  maps, and `Reader.record` for structures, whose fields may be missing or stand in any order.
* `Reader.run`: reads a whole text.
* `Value.parse`: reads a text of no particular type.
-/

namespace TrackFusion.Json

/-- The first thing wrong with a text. -/
inductive Fault where
  /-- The text is not JSON. -/
  | malformed
  /-- The text ends too early. -/
  | truncated
  /-- The text is JSON so far, but not of the type that is read. -/
  | mistyped
  deriving DecidableEq, Repr

def Fault.message : Fault → String
  | malformed => "not a JSON document"
  | truncated => "the document ends too early"
  | mistyped => "a value is missing or of the wrong type"

/-- Takes a value from the front of a text and leaves the rest. -/
abbrev Reader (α : Type) := List Char → Except Fault (α × List Char)

/-- The text from its first character that is not white space. -/
def blank : List Char → List Char
  | [] => []
  | c :: cs => if c = ' ' || c = '\n' || c = '\t' || c = '\r' then blank cs else c :: cs

/-- The text after a fixed word. -/
def word : (w : List Char) → List Char → Except Fault (List Char)
  | [], cs => .ok cs
  | _ :: _, [] => .error .truncated
  | w :: ws, c :: cs => if w = c then word ws cs else .error .malformed

/-! ### Numbers -/

/-- The fault of a number that the text breaks off in. In a value that is only skipped it counts as
malformed. -/
def brokenOff (strict : Bool) : Fault := if strict then .truncated else .malformed

/-- At least one digit. -/
def someDigits (strict : Bool) (cs : List Char) : Except Fault (List Nat × List Char) :=
  match cs.takeWhile Char.isDigit, cs with
  | [], [] => .error (brokenOff strict)
  | [], _ :: _ => .error .malformed
  | ds, cs => .ok (ds.map fun d => d.toNat - '0'.toNat, cs.dropWhile Char.isDigit)

def fractionPart (strict : Bool) : List Char → Except Fault (Option (List Nat) × List Char)
  | '.' :: cs => do
    let (ds, cs) ← someDigits strict cs
    return (some ds, cs)
  | cs => .ok (none, cs)

/-- Sign and digits of an exponent, after its mark. -/
def exponentDigits (strict : Bool) (cs : List Char) : Except Fault (Int × List Char) := do
  let (neg, cs) := match cs with
    | '-' :: cs => (true, cs)
    | '+' :: cs => (false, cs)
    | cs => (false, cs)
  let (ds, cs) ← someDigits strict cs
  let n : Nat := ds.foldl (fun acc d => 10 * acc + d) 0
  return (if neg then -n else n, cs)

def exponentPart (strict : Bool) (cs : List Char) : Except Fault (Option Int × List Char) :=
  match cs with
  | c :: rest =>
    if c = 'e' || c = 'E' then do
      let (e, rest) ← exponentDigits strict rest
      return (some e, rest)
    else .ok (none, cs)
  | [] => .ok (none, [])

/-- A number literal. There is no digit behind a leading zero. -/
def literal (strict : Bool) (cs : List Char) : Except Fault (Literal × List Char) := do
  let (neg, cs) := match cs with
    | '-' :: cs => (true, cs)
    | cs => (false, cs)
  let (whole, cs) ← someDigits strict cs
  if whole.head? = some 0 ∧ 1 < whole.length then throw .malformed
  let (fraction, cs) ← fractionPart strict cs
  let (exponent, cs) ← exponentPart strict cs
  return (⟨neg, whole, fraction, exponent⟩, cs)

/-- Whether a value that starts with this character is a number. -/
def startsNumber (c : Char) : Bool := c = '-' || c.isDigit

/-- Whether a number may have this character. -/
def inNumber (c : Char) : Bool := startsNumber c || c = '+' || c = '.' || c = 'e' || c = 'E'

/-! ### Strings -/

def hexValue? (c : Char) : Option Nat :=
  if c.isDigit then some (c.toNat - '0'.toNat)
  else if 'a' ≤ c ∧ c ≤ 'f' then some (c.toNat - 'a'.toNat + 10)
  else if 'A' ≤ c ∧ c ≤ 'F' then some (c.toNat - 'A'.toNat + 10)
  else none

/-- Four hexadecimal digits. A text with less than four bytes left is truncated. -/
def hexUnit (cs : List Char) : Except Fault (Nat × List Char) :=
  match cs with
  | a :: b :: c :: d :: rest =>
    match hexValue? a, hexValue? b, hexValue? c, hexValue? d with
    | some a, some b, some c, some d => .ok (((a * 16 + b) * 16 + c) * 16 + d, rest)
    | _, _, _, _ => .error .malformed
  | cs =>
    if (String.ofList cs).utf8ByteSize < 4 then .error .truncated else .error .malformed

/-- The character of a `\u` escape. One beyond the first 65536 is written as two units. -/
def unicodeEscape (strict : Bool) (cs : List Char) : Except Fault (Char × List Char) := do
  let (n, cs) ← hexUnit cs
  if n < 0xD800 ∨ 0xDFFF < n then return (Char.ofNat n, cs)
  if !strict then return ('\uFFFD', cs)
  if 0xDBFF < n then throw .malformed
  let cs ← word ['\\', 'u'] cs
  let (m, cs) ← hexUnit cs
  if m < 0xDC00 ∨ 0xDFFF < m then throw .malformed
  return (Char.ofNat (0x10000 + (n - 0xD800) * 1024 + (m - 0xDC00)), cs)

/-- What a backslash with one character behind it stands for. -/
def escapes : List (Char × Char) :=
  [('"', '"'), ('\\', '\\'), ('/', '/'), ('b', '\x08'), ('f', '\x0c'), ('n', '\n'), ('r', '\r'),
    ('t', '\t')]

/-- The character of an escape, after the backslash. -/
def unescape (strict : Bool) : List Char → Except Fault (Char × List Char)
  | [] => .error .truncated
  | c :: cs =>
    match escapes.lookup c with
    | some d => .ok (d, cs)
    | none => if c = 'u' then unicodeEscape strict cs else .error .malformed

theorem length_word {w cs rest : List Char} (h : word w cs = .ok rest) :
    rest.length ≤ cs.length := by
  induction w generalizing cs with
  | nil =>
    rw [word, Except.ok.injEq] at h
    exact Nat.le_of_eq (congrArg List.length h.symm)
  | cons w ws ih =>
    cases cs with
    | nil => simp [word] at h
    | cons c cs =>
      rw [word] at h
      split at h
      · exact Nat.le_succ_of_le (ih h)
      · simp at h

theorem length_hexUnit {cs : List Char} {r : Nat × List Char} (h : hexUnit cs = .ok r) :
    r.2.length ≤ cs.length := by
  unfold hexUnit at h
  split at h
  · split at h
    · simp only [Except.ok.injEq] at h
      rw [← h]
      exact Nat.le_add_right _ 4
    · simp at h
  · split at h <;> simp at h

theorem length_unicodeEscape {strict : Bool} {cs : List Char} {r : Char × List Char}
    (h : unicodeEscape strict cs = .ok r) : r.2.length ≤ cs.length := by
  unfold unicodeEscape at h
  cases h1 : hexUnit cs with
  | error e => simp [h1, bind, Except.bind] at h
  | ok high =>
    have hle := length_hexUnit h1
    simp only [h1, bind, Except.bind, pure, Except.pure, throw, throwThe, MonadExceptOf.throw] at h
    split at h
    · simp only [Except.ok.injEq] at h
      rw [← h]
      exact hle
    split at h
    · simp only [Except.ok.injEq] at h
      rw [← h]
      exact hle
    split at h
    · simp at h
    cases h2 : word ['\\', 'u'] high.2 with
    | error e => simp [h2] at h
    | ok cs2 =>
      have hle2 := length_word h2
      simp only [h2] at h
      cases h3 : hexUnit cs2 with
      | error e => simp [h3] at h
      | ok low =>
        have hle3 := length_hexUnit h3
        simp only [h3] at h
        split at h
        · simp at h
        · simp only [Except.ok.injEq] at h
          rw [← h]
          exact Nat.le_trans hle3 (Nat.le_trans hle2 hle)

theorem length_unescape {strict : Bool} {cs : List Char} {r : Char × List Char}
    (h : unescape strict cs = .ok r) : r.2.length ≤ cs.length := by
  cases cs with
  | nil => simp [unescape] at h
  | cons c cs =>
    simp only [unescape] at h
    split at h
    · simp only [Except.ok.injEq] at h
      rw [← h]
      exact Nat.le_succ _
    · split at h
      · exact Nat.le_succ_of_le (length_unicodeEscape h)
      · simp at h

/-- The characters up to the closing quote. -/
def characters (strict : Bool) : List Char → Except Fault (List Char × List Char)
  | [] => .error .truncated
  | c :: cs =>
    if c = '"' then .ok ([], cs)
    else if c = '\\' then
      match h : unescape strict cs with
      | .error e => .error e
      | .ok (d, rest) =>
        have : rest.length ≤ cs.length := length_unescape h
        (characters strict rest).map fun (ds, cs) => (d :: ds, cs)
    else if c.toNat < 32 then .error .malformed
    else (characters strict cs).map fun (ds, cs) => (c :: ds, cs)
  termination_by cs => cs.length

/-- A string, after the opening quote. -/
def stringBody (strict : Bool) (cs : List Char) : Except Fault (String × List Char) :=
  (characters strict cs).map fun (ds, cs) => (String.ofList ds, cs)

/-! ### Separators -/

/-- The text after a colon. -/
def colon (cs : List Char) : Except Fault (List Char) :=
  match blank cs with
  | [] => .error .truncated
  | ':' :: cs => .ok cs
  | _ => .error .malformed

/-- The text at the next item of an array, or nothing at its end. -/
def nextItem (first : Bool) (cs : List Char) : Except Fault (Option (List Char)) :=
  match blank cs with
  | [] => .error .truncated
  | ']' :: _ => .ok none
  | cs@(c :: rest) =>
    if first then .ok (some cs)
    else if c = ',' then
      match blank rest with
      | [] => .error .truncated
      | ']' :: _ => .error .malformed
      | rest => .ok (some rest)
    else .error .malformed

/-- The text after the end of an array. -/
def endItems (cs : List Char) : Except Fault (List Char) :=
  match blank cs with
  | [] => .error .truncated
  | ']' :: cs => .ok cs
  | _ => .error .malformed

/-- The same text, if a key comes next. -/
def atKey (cs : List Char) : Except Fault (List Char) :=
  match blank cs with
  | [] => .error .truncated
  | '"' :: _ => .ok cs
  | _ => .error .malformed

/-- The text after the opening quote of the next key of an object, or else that after its end. -/
def nextKey (first : Bool) (cs : List Char) : Except Fault (List Char ⊕ List Char) :=
  match blank cs with
  | [] => .error .truncated
  | '}' :: rest => .ok (.inr rest)
  | c :: rest =>
    if first then if c = '"' then .ok (.inl rest) else .error .malformed
    else if c = ',' then
      match blank rest with
      | [] => .error .truncated
      | '"' :: rest => .ok (.inl rest)
      | _ => .error .malformed
    else .error .malformed

/-! ### Values of any type -/

mutual

/-- A value of a text no longer than `fuel`. -/
def anyValue (strict : Bool) : (fuel : Nat) → Reader Value
  | 0, _ => .error .truncated
  | fuel + 1, cs =>
    match blank cs with
    | [] => .error .truncated
    | '[' :: cs => do
      let (items, cs) ← anyItems strict fuel true cs
      return (.arr items, cs)
    | '{' :: cs => do
      let (members, cs) ← anyMembers strict fuel true cs
      return (.obj members, cs)
    | '"' :: cs => do
      let (s, cs) ← stringBody strict cs
      return (.str s, cs)
    | 'n' :: cs => return (.null, ← word ['u', 'l', 'l'] cs)
    | 't' :: cs => return (.bool true, ← word ['r', 'u', 'e'] cs)
    | 'f' :: cs => return (.bool false, ← word ['a', 'l', 's', 'e'] cs)
    | cs@(c :: _) =>
      if startsNumber c then do
        let (l, rest) ← literal strict cs
        if strict && l.toFloat?.isNone then throw .malformed
        return (.num (String.ofList (cs.takeWhile inNumber)), rest)
      else .error .malformed

def anyItems (strict : Bool) : (fuel : Nat) → (first : Bool) → Reader (List Value)
  | 0, _, _ => .error .truncated
  | fuel + 1, first, cs => do
    match ← nextItem first cs with
    | none => return ([], ← endItems cs)
    | some cs =>
      let (v, cs) ← anyValue strict fuel cs
      let (vs, cs) ← anyItems strict fuel false cs
      return (v :: vs, cs)

def anyMembers (strict : Bool) : (fuel : Nat) → (first : Bool) → Reader (List (String × Value))
  | 0, _, _ => .error .truncated
  | fuel + 1, first, cs => do
    match ← nextKey first cs with
    | .inr cs => return ([], cs)
    | .inl cs =>
      let (k, cs) ← stringBody strict cs
      let cs ← colon cs
      let (v, cs) ← anyValue strict fuel cs
      let (vs, cs) ← anyMembers strict fuel false cs
      return ((k, v) :: vs, cs)

end

/-- Each nesting level and each item takes at least one character. -/
def anyFuel (cs : List Char) : Nat := 2 * cs.length + 2

/-- The text after a value that nobody asks for. Such a value need not be in range or paired up. -/
def skip (cs : List Char) : Except Fault (List Char) := do
  let (_, cs) ← anyValue false (anyFuel cs) cs
  return cs

/-- The fault of a text that goes on with a value of another type. A fault in a scalar comes before
that of its type. -/
def wrongType (cs : List Char) : Fault :=
  match blank cs with
  | [] => .truncated
  | '[' :: _ => .mistyped
  | '{' :: _ => .mistyped
  | cs =>
    match anyValue true (anyFuel cs) cs with
    | .ok _ => .mistyped
    | .error e => e

namespace Reader

/-! ### Scalars -/

/-- A number literal that is in range. -/
def inRange : Reader Literal := fun cs =>
  match blank cs with
  | [] => .error .truncated
  | cs@(c :: _) =>
    if startsNumber c then do
      let (l, rest) ← literal true cs
      if l.toFloat?.isNone then throw .malformed
      return (l, rest)
    else .error (wrongType cs)

def number {α : Type} [Number α] : Reader α := fun cs => do
  let (l, cs) ← inRange cs
  match Number.ofLiteral? l with
  | some x => return (x, cs)
  | none => throw .malformed

/-- A natural number below `bound`. -/
def natural (bound : Nat) : Reader Nat := fun cs => do
  let (l, cs) ← inRange cs
  match l.toNat? with
  | some n => if n < bound then return (n, cs) else throw .mistyped
  | none => throw .mistyped

def bool : Reader Bool := fun cs =>
  match blank cs with
  | 't' :: cs => return (true, ← word ['r', 'u', 'e'] cs)
  | 'f' :: cs => return (false, ← word ['a', 'l', 's', 'e'] cs)
  | cs => .error (wrongType cs)

def string : Reader String := fun cs =>
  match blank cs with
  | '"' :: cs => stringBody true cs
  | cs => .error (wrongType cs)

def null : Reader Unit := fun cs =>
  match blank cs with
  | 'n' :: cs => return ((), ← word ['u', 'l', 'l'] cs)
  | cs => .error (wrongType cs)

/-- A name that stands for a value. -/
def named {α : Type} (names : List (String × α)) : Reader α := fun cs => do
  let (s, cs) ← string cs
  match names.lookup s with
  | some x => return (x, cs)
  | none => throw .mistyped

/-- One of several names, as a string or as the one key of an object that holds null. -/
def oneOf {α : Type} (names : List (String × α)) : Reader α := fun cs =>
  match blank cs with
  | [] => .error .truncated
  | '"' :: _ => named names cs
  | '{' :: cs => do
    let (x, cs) ← named names (← atKey cs)
    let cs ← colon cs
    let (_, cs) ← null cs
    match blank cs with
    | [] => throw .truncated
    | '}' :: cs => return (x, cs)
    | _ => throw .malformed
  | _ => .error .malformed

/-! ### Lists and maps -/

def items {α : Type} (item : Reader α) : (fuel : Nat) → (first : Bool) → Reader (List α)
  | 0, _, _ => .error .truncated
  | fuel + 1, first, cs => do
    match ← nextItem first cs with
    | none => return ([], ← endItems cs)
    | some cs =>
      let (x, cs) ← item cs
      let (xs, cs) ← items item fuel false cs
      return (x :: xs, cs)

def listOf {α : Type} (item : Reader α) : Reader (List α) := fun cs =>
  match blank cs with
  | '[' :: cs => items item (cs.length + 1) true cs
  | cs => .error (wrongType cs)

def entries {κ α : Type} (keys : List (String × κ)) (item : Reader α) :
    (fuel : Nat) → (first : Bool) → Reader (List (κ × α))
  | 0, _, _ => .error .truncated
  | fuel + 1, first, cs => do
    match ← nextKey first cs with
    | .inr cs => return ([], cs)
    | .inl cs =>
      let (s, cs) ← stringBody true cs
      match keys.lookup s with
      | none => throw .mistyped
      | some k =>
        let cs ← colon cs
        let (x, cs) ← item cs
        let (xs, cs) ← entries keys item fuel false cs
        return ((k, x) :: xs, cs)

/-- An object whose keys stand for values, entry by entry. -/
def mapOf {κ α : Type} (keys : List (String × κ)) (item : Reader α) : Reader (List (κ × α)) :=
  fun cs =>
    match blank cs with
    | '{' :: cs => entries keys item (cs.length + 1) true cs
    | cs => .error (wrongType cs)

/-! ### Records -/

/-- A field of a record: reading it changes the record read so far. -/
structure Field (σ : Type) where
  name : String
  required : Bool
  read : σ → Reader σ

/-- A field that keeps its initial value if it is missing. -/
def Field.optional {σ α : Type} (name : String) (item : Reader α) (put : σ → α → σ) : Field σ where
  name := name
  required := false
  read s cs := do
    let (x, cs) ← item cs
    return (put s x, cs)

/-- A field that must not be missing. -/
def Field.needed {σ α : Type} (name : String) (item : Reader α) (put : σ → α → σ) : Field σ :=
  { Field.optional name item put with required := true }

/-- The fields as items of an array, in order; the last ones may be missing. -/
def fieldItems {σ : Type} : List (Field σ) → (first : Bool) → σ → Reader σ
  | [], _, s, cs => return (s, ← endItems cs)
  | f :: fs, first, s, cs => do
    match ← nextItem first cs with
    | none => if f.required then throw .mistyped else fieldItems fs first s cs
    | some cs =>
      let (s, cs) ← f.read s cs
      fieldItems fs false s cs

/-- The fields as members of an object, in any order, each at most once. -/
def fieldMembers {σ : Type} (fields : List (Field σ)) :
    (fuel : Nat) → (seen : List String) → (first : Bool) → σ → Reader σ
  | 0, _, _, _, _ => .error .truncated
  | fuel + 1, seen, first, s, cs => do
    match ← nextKey first cs with
    | .inr cs =>
      if fields.any fun f => f.required && !seen.contains f.name then throw .mistyped
      return (s, cs)
    | .inl cs =>
      let (k, cs) ← stringBody true cs
      match fields.find? fun f => f.name == k with
      | none =>
        let cs ← colon cs
        let cs ← skip cs
        fieldMembers fields fuel seen false s cs
      | some f =>
        if seen.contains k then throw .mistyped
        let cs ← colon cs
        let (s, cs) ← f.read s cs
        fieldMembers fields fuel (k :: seen) false s cs

/-- A record, as an object or as the array of its fields; `init` has what is not given. -/
def record {σ : Type} (fields : List (Field σ)) (init : σ) : Reader σ := fun cs =>
  match blank cs with
  | '[' :: cs => fieldItems fields true init cs
  | '{' :: cs => fieldMembers fields (cs.length + 1) [] true init cs
  | cs => .error (wrongType cs)

/-- Reads a whole text. -/
def run {α : Type} (r : Reader α) (text : String) : Except Fault α := do
  let (x, cs) ← r text.toList
  if (blank cs).isEmpty then return x else throw .malformed

end Reader

/-- Reads a text of no particular type. -/
def Value.parse (text : String) : Except Fault Value :=
  Reader.run (fun cs => anyValue true (anyFuel cs) cs) text

end TrackFusion.Json
