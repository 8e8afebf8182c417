import Mathlib
import TrackFusion.Proofs.Json.Layout
import TrackFusion.Proofs.Magnitudes

/-!
# Number literals

A literal ends where no character of a number follows.

* `Ends`: a text that does not go on with a number.
* `literal_append`: a literal is read as if nothing stood behind it.
* `decimal`: the literal of a natural number, with `literal_toDigits` and `toFloat?_decimal` on how
  it is read.
-/

namespace TrackFusion.Json

/-- A text that does not go on with a number. -/
def Ends (rest : List Char) : Prop := ∀ c ∈ rest.head?, inNumber c = false

theorem Ends.nil : Ends [] := by simp [Ends]

theorem Ends.cons {c : Char} (h : inNumber c = false) (rest : List Char) : Ends (c :: rest) := by
  simpa [Ends] using h

theorem IsBlank.inNumber {c : Char} (h : IsBlank c) : inNumber c = false := by
  rcases h with rfl | rfl | rfl | rfl <;> rfl

theorem Blank.ends {ws : List Char} (h : Blank ws) : Ends ws := by
  cases ws with
  | nil => exact Ends.nil
  | cons c ws => exact Ends.cons (h c (by simp)).inNumber ws

theorem bind_eq_ok {ε α β : Type} {x : Except ε α} {f : α → Except ε β} {b : β} :
    (x >>= f) = .ok b ↔ ∃ a, x = .ok a ∧ f a = .ok b := by
  cases x <;> simp [bind, Except.bind]

/-! ### Literals -/

section literals

variable {strict : Bool} {cs cs' rest : List Char}

theorem Ends.isDigit (hr : Ends rest) : ∀ c ∈ rest.head?, c.isDigit = false := by
  intro c hc
  have h := hr c hc
  simp only [inNumber, startsNumber, Bool.or_eq_false_iff] at h
  exact h.1.1.1.1.2

/-- Digits are taken as if nothing stood behind. -/
theorem span_digits (hr : Ends rest) (cs : List Char) :
    (cs ++ rest).takeWhile Char.isDigit = cs.takeWhile Char.isDigit ∧
      (cs ++ rest).dropWhile Char.isDigit = cs.dropWhile Char.isDigit ++ rest := by
  induction cs with
  | nil =>
    cases rest with
    | nil => exact ⟨rfl, rfl⟩
    | cons c rest => simp [hr.isDigit c rfl]
  | cons c cs ih => by_cases h : c.isDigit = true <;> simp [h, ih]

/-- There is a digit, and all of them are taken. -/
theorem someDigits_eq_ok {ds : List ℕ} :
    someDigits strict cs = .ok (ds, cs') ↔ cs.takeWhile Char.isDigit ≠ [] ∧
      (cs.takeWhile Char.isDigit).map (fun d => d.toNat - '0'.toNat) = ds ∧
      cs.dropWhile Char.isDigit = cs' := by
  cases htake : cs.takeWhile Char.isDigit with
  | nil => cases cs <;> simp [someDigits, htake]
  | cons d ds' => simp [someDigits, htake]

theorem someDigits_append (hr : Ends rest) {ds : List ℕ}
    (h : someDigits strict cs = .ok (ds, cs')) :
    someDigits strict (cs ++ rest) = .ok (ds, cs' ++ rest) := by
  rw [someDigits_eq_ok] at h ⊢
  obtain ⟨hne, rfl, rfl⟩ := h
  rw [(span_digits hr cs).1, (span_digits hr cs).2]
  exact ⟨hne, rfl, rfl⟩

theorem fractionPart_of_ne (h : '.' ∉ cs.head?) : fractionPart strict cs = .ok (none, cs) := by
  unfold fractionPart
  split
  · simp at h
  · rfl

theorem exponentPart_of_ne (h : 'e' ∉ cs.head?) (h' : 'E' ∉ cs.head?) :
    exponentPart strict cs = .ok (none, cs) := by
  cases cs with
  | nil => rfl
  | cons c cs => simp_all [exponentPart]

theorem fractionPart_append (hr : Ends rest) {f : Option (List ℕ)}
    (h : fractionPart strict cs = .ok (f, cs')) :
    fractionPart strict (cs ++ rest) = .ok (f, cs' ++ rest) := by
  cases cs with
  | nil =>
    cases h
    exact fractionPart_of_ne fun hc => by simpa [inNumber] using hr _ hc
  | cons c cs =>
    by_cases hc : c = '.'
    · subst hc
      simp only [fractionPart, List.cons_append, bind_eq_ok, Prod.exists] at h ⊢
      obtain ⟨ds, cs'', hds, hf⟩ := h
      exact ⟨ds, cs'' ++ rest, someDigits_append hr hds, by cases hf; rfl⟩
    · rw [fractionPart_of_ne (by simp [hc])] at h ⊢
      cases h
      rfl

/-- An exponent, after its sign. -/
def unsignedExponent (strict neg : Bool) (cs : List Char) : Except Fault (ℤ × List Char) := do
  let (ds, cs) ← someDigits strict cs
  let n : ℕ := ds.foldl (fun acc d => 10 * acc + d) 0
  return (if neg then -n else n, cs)

theorem exponentDigits_cons (c : Char) (cs : List Char) : exponentDigits strict (c :: cs) =
    if c = '-' then unsignedExponent strict true cs
    else if c = '+' then unsignedExponent strict false cs
    else unsignedExponent strict false (c :: cs) := by
  by_cases hm : c = '-'
  · rw [if_pos hm, hm]
    rfl
  by_cases hp : c = '+'
  · rw [if_neg hm, if_pos hp, hp]
    rfl
  · simp [exponentDigits, unsignedExponent, hm, hp]

theorem unsignedExponent_append (hr : Ends rest) {neg : Bool} {e : ℤ}
    (h : unsignedExponent strict neg cs = .ok (e, cs')) :
    unsignedExponent strict neg (cs ++ rest) = .ok (e, cs' ++ rest) := by
  simp only [unsignedExponent, bind_eq_ok, Prod.exists] at h ⊢
  obtain ⟨ds, cs'', hds, he⟩ := h
  exact ⟨ds, cs'' ++ rest, someDigits_append hr hds, by cases he; rfl⟩

theorem exponentDigits_append (hr : Ends rest) {e : ℤ}
    (h : exponentDigits strict cs = .ok (e, cs')) :
    exponentDigits strict (cs ++ rest) = .ok (e, cs' ++ rest) := by
  cases cs with
  | nil => cases h
  | cons c cs =>
    rw [List.cons_append, exponentDigits_cons] at *
    split_ifs at h ⊢ <;> exact unsignedExponent_append hr h

theorem exponentPart_append (hr : Ends rest) {e : Option ℤ}
    (h : exponentPart strict cs = .ok (e, cs')) :
    exponentPart strict (cs ++ rest) = .ok (e, cs' ++ rest) := by
  cases cs with
  | nil =>
    cases h
    exact exponentPart_of_ne (fun hc => by simpa [inNumber] using hr _ hc)
      (fun hc => by simpa [inNumber] using hr _ hc)
  | cons c cs =>
    by_cases hc : c = 'e' ∨ c = 'E'
    · simp only [exponentPart, List.cons_append, bind_eq_ok, Prod.exists, Bool.or_eq_true,
        decide_eq_true_eq, if_pos hc] at h ⊢
      obtain ⟨ds, cs'', hds, hf⟩ := h
      exact ⟨ds, cs'' ++ rest, exponentDigits_append hr hds, by cases hf; rfl⟩
    · rw [not_or] at hc
      rw [exponentPart_of_ne (by simp [hc]) (by simp [hc])] at h ⊢
      cases h
      rfl

/-- A literal, after its sign. -/
def unsignedLiteral (strict neg : Bool) (cs : List Char) : Except Fault (Literal × List Char) := do
  let (whole, cs) ← someDigits strict cs
  if whole.head? = some 0 ∧ 1 < whole.length then throw .malformed
  let (fraction, cs) ← fractionPart strict cs
  let (exponent, cs) ← exponentPart strict cs
  return (⟨neg, whole, fraction, exponent⟩, cs)

theorem literal_cons (c : Char) (cs : List Char) : literal strict (c :: cs) =
    if c = '-' then unsignedLiteral strict true cs else unsignedLiteral strict false (c :: cs) := by
  by_cases hm : c = '-'
  · rw [if_pos hm, hm]
    rfl
  · simp [literal, unsignedLiteral, hm]

theorem unsignedLiteral_append (hr : Ends rest) {neg : Bool} {l : Literal}
    (h : unsignedLiteral strict neg cs = .ok (l, cs')) :
    unsignedLiteral strict neg (cs ++ rest) = .ok (l, cs' ++ rest) := by
  simp only [unsignedLiteral, bind_eq_ok, Prod.exists] at h ⊢
  obtain ⟨ds, cs₁, hds, h⟩ := h
  refine ⟨ds, cs₁ ++ rest, someDigits_append hr hds, ?_⟩
  split_ifs at h ⊢
  · cases h
  simp only [bind_eq_ok, Prod.exists] at h ⊢
  obtain ⟨f, cs₂, hf, e, cs₃, he, hl⟩ := h
  exact ⟨f, cs₂ ++ rest, fractionPart_append hr hf, e, cs₃ ++ rest, exponentPart_append hr he,
    by cases hl; rfl⟩

/-- **A literal is read as if nothing stood behind it.** -/
theorem literal_append (hr : Ends rest) {l : Literal} (h : literal strict cs = .ok (l, cs')) :
    literal strict (cs ++ rest) = .ok (l, cs' ++ rest) := by
  cases cs with
  | nil => cases h
  | cons c cs =>
    rw [List.cons_append, literal_cons] at *
    split_ifs at h ⊢ <;> exact unsignedLiteral_append hr h

end literals

/-! ### Natural numbers -/

/-- The first digit of a number above zero is not zero. -/
theorem head_toDigits {n : ℕ} (hn : 0 < n) :
    ∃ d ds, Nat.toDigits 10 n = d :: ds ∧ d.toNat - '0'.toNat ≠ 0 := by
  induction n using Nat.strong_induction_on with
  | _ n ih =>
    rcases lt_or_ge n 10 with h | h
    · rw [Nat.toDigits_of_lt_base h]
      refine ⟨_, [], rfl, ?_⟩
      interval_cases n <;> decide
    · obtain ⟨d, ds, hds, hd⟩ := ih (n / 10) (by omega) (by omega)
      rw [Nat.toDigits_of_base_le (by decide) h, hds]
      exact ⟨d, _, rfl, hd⟩

/-- The digits of a number as a literal. -/
def decimal (n : ℕ) : Literal where
  neg := false
  whole := (Nat.toDigits 10 n).map fun d => d.toNat - '0'.toNat
  fraction := none
  exponent := none

@[simp] theorem decimal_neg (n : ℕ) : (decimal n).neg = false := rfl
@[simp] theorem decimal_fraction (n : ℕ) : (decimal n).fraction = none := rfl
@[simp] theorem decimal_exponent (n : ℕ) : (decimal n).exponent = none := rfl

theorem literal_toDigits (strict : Bool) (n : ℕ) :
    literal strict (Nat.toDigits 10 n) = .ok (decimal n, []) := by
  have hdigit : ∀ c ∈ Nat.toDigits 10 n, c.isDigit = true := fun c hc =>
    Nat.isDigit_of_mem_toDigits (by decide) (by decide) hc
  have htake : (Nat.toDigits 10 n).takeWhile Char.isDigit = Nat.toDigits 10 n :=
    List.takeWhile_eq_self_iff.2 hdigit
  have hdrop : (Nat.toDigits 10 n).dropWhile Char.isDigit = [] :=
    List.dropWhile_eq_nil_iff.2 hdigit
  have hdigits : someDigits strict (Nat.toDigits 10 n) = .ok ((decimal n).whole, []) :=
    someDigits_eq_ok.2 ⟨by rw [htake]; exact Nat.toDigits_ne_nil, by rw [htake]; rfl, hdrop⟩
  have hzero : ¬ ((decimal n).whole.head? = some 0 ∧ 1 < (decimal n).whole.length) := by
    rcases Nat.eq_zero_or_pos n with rfl | hn
    · decide
    · obtain ⟨d, ds, hds, hd⟩ := head_toDigits hn
      rintro ⟨hhead, -⟩
      rw [decimal, hds] at hhead
      exact hd (Option.some.inj hhead)
  cases hds : Nat.toDigits 10 n with
  | nil => exact absurd hds Nat.toDigits_ne_nil
  | cons d ds =>
    rw [hds] at hdigit hdigits
    have hminus : d ≠ '-' := by
      rintro rfl
      exact absurd (hdigit '-' (by simp)) (by decide)
    rw [literal_cons, if_neg hminus, unsignedLiteral, hdigits]
    simp only [bind, Except.bind, if_neg hzero]
    rfl

theorem foldl_decimal (n : ℕ) : (decimal n).whole.foldl (fun acc d => 10 * acc + d) 0 = n := by
  rw [decimal, List.foldl_map]
  exact Nat.ofDigitChars_toDigits (by decide) (by decide)

/-- All digits count, as long as the number fits into 64 bits. -/
theorem gather_eq (ds : List ℕ) (acc : ℕ)
    (h : ds.foldl (fun acc d => 10 * acc + d) acc < 2 ^ 64) :
    Literal.gather acc ds = (ds.foldl (fun acc d => 10 * acc + d) acc, []) := by
  induction ds generalizing acc with
  | nil => rfl
  | cons d ds ih =>
    have hle : ∀ (ds : List ℕ) (acc : ℕ), acc ≤ ds.foldl (fun acc d => 10 * acc + d) acc := by
      intro ds
      induction ds with
      | nil => exact fun acc => le_refl acc
      | cons d ds ih => exact fun acc => le_trans (by omega) (ih (10 * acc + d))
    rw [List.foldl_cons] at h ⊢
    have hlt : 10 * acc + d < Nat.pow 2 64 := (hle ds _).trans_lt h
    rw [Literal.gather, if_pos hlt, ih _ h]

theorem toFloat?_decimal {n : ℕ} (h : n < 2 ^ 64) : (decimal n).toFloat?.isSome = true := by
  have hgather : Literal.gather 0 (decimal n).whole = (n, []) := by
    rw [gather_eq _ _ (by rwa [foldl_decimal]), foldl_decimal]
  have hsig : (decimal n).significand = (n, 0) := by
    simp [Literal.significand, hgather, Literal.gather]
  rcases Nat.eq_zero_or_pos n with rfl | hn
  · rw [Literal.toFloat?, hsig]
    rfl
  · -- so small a number is multiplied by one, which leaves it finite
    have hnormal := Binary64.normal_mul (Binary64.normal_ofNat hn h) Binary64.normal_one
      (by decide) (by decide)
    have hone : Float.ofScientific 1 false 0 = 1.0 := by decide
    have hinf : (Float.ofNat n * Float.ofScientific 1 false 0).isInf = false := by
      rw [hone]
      show (Float.ofNat n * 1.0).toModel.unpack.isInf = false
      cases hu : (Float.ofNat n * 1.0).toModel.unpack with
      | finite => rfl
      | _ => rw [hu] at hnormal; exact absurd hnormal id
    rw [Literal.toFloat?, hsig]
    simp [hn.ne', Literal.scale, hinf]

end TrackFusion.Json
