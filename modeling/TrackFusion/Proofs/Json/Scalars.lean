import Mathlib
import TrackFusion.Proofs.Json.Literals
import TrackFusion.Json.Encode

/-!
# Reading scalars back

* `Reads`: a reader reads a value, however it is laid out.
* `reads_string`, `reads_bool`, `reads_natural`: strings, truth values and natural numbers are read
  back as they were.
* `ReadsBack`: a number is what is read of its own text; `ReadsBack.reads` puts that text into a
  document.
-/

namespace TrackFusion.Json

/-- **A reader reads a value**, with any white space in it and before it, and leaves what comes
behind. -/
structure Reads {α : Type} (r : Reader α) (v : Value) (x : α) : Prop where
  /-- The text is not mistaken for white space, or for the end of an array. -/
  starts : ∀ cs, Layout v cs → ∃ c cs', cs = c :: cs' ∧ ¬ IsBlank c ∧ c ≠ ']'
  read : ∀ ws cs rest, Blank ws → Layout v cs → Ends rest →
    r (ws ++ (cs ++ rest)) = .ok (x, rest)

/-- A whole text is read, with white space at its end. -/
theorem Reads.run {α : Type} {r : Reader α} {v : Value} {x : α} (h : Reads r v x) {text : String}
    (htext : Spells text v) : Reader.run r text = .ok x := by
  obtain ⟨ws, cs, ws', hws, hcs, hws', htext⟩ := htext
  rw [Reader.run, htext, h.read ws cs ws' hws hcs hws'.ends]
  simp [bind, Except.bind, pure, Except.pure, blank_eq_nil hws']

/-! ### Strings -/

/-- A character stands for itself, or is read from behind a backslash. -/
theorem escape_cases (c : Char) :
    escape c = [c] ∧ c ≠ '"' ∧ c ≠ '\\' ∧ ¬ c.toNat < 32 ∨
      ∃ cs, escape c = '\\' :: cs ∧
        ∀ strict rest, unescape strict (cs ++ rest) = .ok (c, rest) := by
  by_cases hq : c = '"'
  · exact .inr ⟨['"'], by simp [escape, hq], fun _ _ => by rw [hq]; rfl⟩
  by_cases hs : c = '\\'
  · exact .inr ⟨['\\'], by simp [escape, hs], fun _ _ => by rw [hs]; rfl⟩
  by_cases hlt : c.toNat < 32
  · right
    have hc : c = Char.ofNat c.toNat := (Char.ofNat_toNat c).symm
    generalize c.toNat = n at hlt hc
    subst hc
    interval_cases n <;> exact ⟨_, rfl, fun _ _ => rfl⟩
  · refine .inl ⟨?_, hq, hs, hlt⟩
    have hne : ∀ d : Char, d.toNat < 32 → c ≠ d := fun d hd h => hlt (h ▸ hd)
    rw [escape, if_neg hq, if_neg hs, if_neg (hne _ (by decide)), if_neg (hne _ (by decide)),
      if_neg (hne _ (by decide)), if_neg (hne _ (by decide)), if_neg (hne _ (by decide)),
      if_neg hlt]

theorem characters_escape (strict : Bool) (s rest : List Char) :
    characters strict (s.flatMap escape ++ '"' :: rest) = .ok (s, rest) := by
  induction s with
  | nil => rw [List.flatMap_nil, List.nil_append, characters, if_pos rfl]
  | cons c s ih =>
    rw [List.flatMap_cons, List.append_assoc]
    rcases escape_cases c with ⟨he, hq, hs, hlt⟩ | ⟨cs, he, hread⟩
    · rw [he, List.singleton_append, characters, if_neg hq, if_neg hs, if_neg hlt, ih]
      rfl
    · rw [he, List.cons_append, characters, if_neg (by decide), if_pos rfl]
      have hc := hread strict (s.flatMap escape ++ '"' :: rest)
      split
      · next e h => rw [hc] at h; cases h
      · next d tail h =>
        rw [hc] at h
        cases h
        rw [ih]
        rfl

theorem quote_toList (s : String) :
    (quote s).toList = '"' :: (s.toList.flatMap escape ++ ['"']) := by
  simp [quote]

/-- The text of a string is read from behind its opening quote. -/
theorem stringBody_escape (strict : Bool) (s : String) (rest : List Char) :
    stringBody strict (s.toList.flatMap escape ++ '"' :: rest) = .ok (s, rest) := by
  rw [stringBody, characters_escape]
  simp [Except.map]

theorem blank_quote {ws : List Char} (hws : Blank ws) (s : String) (rest : List Char) :
    blank (ws ++ ((quote s).toList ++ rest)) =
      '"' :: (s.toList.flatMap escape ++ '"' :: rest) := by
  rw [blank_append hws, quote_toList, List.cons_append,
    blank_cons_of_not_isBlank (by simp [IsBlank]), List.append_assoc]
  rfl

theorem reads_string (s : String) : Reads Reader.string (.str s) s where
  starts := by
    rintro _ ⟨⟩
    exact ⟨'"', _, quote_toList s, by simp [IsBlank], by decide⟩
  read := by
    rintro ws _ rest hws ⟨⟩ -
    rw [Reader.string, blank_quote hws]
    exact stringBody_escape true s rest

theorem named_quote {α : Type} {names : List (String × α)} {s : String} {x : α}
    (h : names.lookup s = some x) {ws : List Char} (hws : Blank ws) (rest : List Char) :
    Reader.named names (ws ++ ((quote s).toList ++ rest)) = .ok (x, rest) := by
  have hs : Reader.string (ws ++ ((quote s).toList ++ rest)) = .ok (s, rest) := by
    rw [Reader.string, blank_quote hws]
    exact stringBody_escape true s rest
  rw [Reader.named, hs]
  simp [bind, Except.bind, pure, Except.pure, h]

/-- A name that stands for a value. -/
theorem reads_oneOf {α : Type} {names : List (String × α)} {s : String} {x : α}
    (h : names.lookup s = some x) : Reads (Reader.oneOf names) (.str s) x where
  starts := (reads_string s).starts
  read := by
    rintro ws _ rest hws ⟨⟩ -
    rw [Reader.oneOf, blank_quote hws]
    exact named_quote h hws rest

/-! ### Truth values -/

theorem reads_bool (b : Bool) : Reads Reader.bool (.bool b) b where
  starts := by
    rintro _ ⟨⟩
    cases b with
    | true => exact ⟨'t', _, rfl, by simp [IsBlank], by decide⟩
    | false => exact ⟨'f', _, rfl, by simp [IsBlank], by decide⟩
  read := by
    rintro ws _ rest hws ⟨⟩ -
    cases b <;>
      simp [Reader.bool, hws, blank, word, bind, Except.bind, pure, Except.pure]

/-! ### Numbers -/

theorem inNumber_of_startsNumber {c : Char} (h : startsNumber c = true) : inNumber c = true := by
  simp [inNumber, h]

theorem not_isBlank_of_inNumber {c : Char} (h : inNumber c = true) : ¬ IsBlank c := by
  intro hb
  rw [hb.inNumber] at h
  cases h

theorem inRange_cons {c : Char} (hc : startsNumber c = true) (cs : List Char) :
    Reader.inRange (c :: cs) = do
      let (l, rest) ← literal true (c :: cs)
      if l.toFloat?.isNone then throw .malformed
      return (l, rest) := by
  rw [Reader.inRange, blank_cons_of_not_isBlank (not_isBlank_of_inNumber
    (inNumber_of_startsNumber hc))]
  simp only [hc, if_true]

/-- A literal in a document. -/
theorem inRange_append {c : Char} {cs ws rest : List Char} {l : Literal}
    (hc : startsNumber c = true) (hlit : literal true (c :: cs) = .ok (l, []))
    (hl : l.toFloat?.isSome = true) (hws : Blank ws) (hr : Ends rest) :
    Reader.inRange (ws ++ (c :: cs ++ rest)) = .ok (l, rest) := by
  have hblank : Reader.inRange (ws ++ (c :: cs ++ rest)) = Reader.inRange (c :: (cs ++ rest)) := by
    rw [Reader.inRange, blank_append hws]
    rfl
  have happend := literal_append hr hlit
  rw [hblank, inRange_cons hc, ← List.cons_append, happend]
  have hl : ¬ l.toFloat?.isNone = true := by simpa [Option.isSome_iff_ne_none] using hl
  simp [bind, Except.bind, pure, Except.pure, hl]

/-- **A number is what is read of its text**, to the end of it. -/
structure ReadsBack {α : Type} [Number α] (x : α) : Prop where
  /-- The text is a single word. -/
  token : (Number.text x).toList.all inNumber = true
  read : Reader.number (Number.text x).toList = .ok (x, [])

instance {α : Type} [Number α] [DecidableEq α] (x : α) : Decidable (ReadsBack x) :=
  decidable_of_iff ((Number.text x).toList.all inNumber = true ∧
      Reader.number (Number.text x).toList = .ok (x, []))
    ⟨fun h => ⟨h.1, h.2⟩, fun h => ⟨h.token, h.read⟩⟩

/-- The literal that such a number is written as. -/
theorem ReadsBack.exists_literal {α : Type} [Number α] {x : α} (h : ReadsBack x) :
    ∃ c cs l, (Number.text x).toList = c :: cs ∧ startsNumber c = true ∧
      literal true (c :: cs) = .ok (l, []) ∧ l.toFloat?.isSome = true ∧
      Number.ofLiteral? l = some x := by
  obtain ⟨htoken, hread⟩ := h
  rw [List.all_eq_true] at htoken
  cases htext : (Number.text x).toList with
  | nil =>
    rw [htext] at hread
    cases hread
  | cons c cs =>
    rw [htext] at htoken hread
    have hblank := not_isBlank_of_inNumber (htoken c (by simp))
    have hc : startsNumber c = true := by
      by_contra hc
      rw [Reader.number, Reader.inRange, blank_cons_of_not_isBlank hblank] at hread
      simp only [if_neg hc] at hread
      cases hread
    rw [Reader.number, inRange_cons hc] at hread
    simp only [bind_eq_ok, Prod.exists] at hread
    obtain ⟨l, rest, ⟨l', rest', hlit, h⟩, hx⟩ := hread
    split_ifs at h with hl
    · cases h
    cases h
    split at hx
    · next y hy =>
      cases hx
      refine ⟨c, cs, l, rfl, hc, hlit, ?_, hy⟩
      simpa [Option.isSome_iff_ne_none] using hl
    · cases hx

theorem ReadsBack.reads {α : Type} [Number α] {x : α} (h : ReadsBack x) :
    Reads Reader.number (.ofNumber x) x := by
  obtain ⟨c, cs, l, htext, hc, hlit, hl, hx⟩ := h.exists_literal
  have hnot := not_isBlank_of_inNumber (inNumber_of_startsNumber hc)
  constructor
  · rintro _ ⟨⟩
    refine ⟨c, cs, htext, hnot, ?_⟩
    rintro rfl
    cases hc
  · rintro ws _ rest hws ⟨⟩ hr
    rw [htext, Reader.number, inRange_append hc hlit hl hws hr]
    simp [bind, Except.bind, pure, Except.pure, hx]

/-- A natural number below a bound that fits into 64 bits. -/
theorem reads_natural {n bound : ℕ} (hn : n < bound) (hbound : bound ≤ 2 ^ 64) :
    Reads (Reader.natural bound) (.ofNat n) n := by
  have htext : (toString n).toList = Nat.toDigits 10 n := by
    rw [Nat.toString_eq_ofList_toDigits, String.toList_ofList]
  obtain ⟨c, cs, hcs⟩ := List.exists_cons_of_ne_nil (Nat.toDigits_ne_nil (n := n) (b := 10))
  have hdigit : c.isDigit = true :=
    Nat.isDigit_of_mem_toDigits (by decide) (by decide) (hcs ▸ List.mem_cons_self)
  have hc : startsNumber c = true := by simp [startsNumber, hdigit]
  constructor
  · rintro _ ⟨⟩
    refine ⟨c, cs, htext.trans hcs, not_isBlank_of_inNumber (inNumber_of_startsNumber hc), ?_⟩
    rintro rfl
    cases hc
  · rintro ws _ rest hws ⟨⟩ hr
    have hlit := literal_toDigits true n
    rw [hcs] at hlit
    rw [htext, hcs, Reader.natural,
      inRange_append hc hlit (toFloat?_decimal (hn.trans_le hbound)) hws hr]
    simp [bind, Except.bind, pure, Except.pure, Literal.toNat?, foldl_decimal, hn]

end TrackFusion.Json
