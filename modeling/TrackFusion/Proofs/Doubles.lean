import TrackFusion.Proofs.Ordered
import TrackFusion.Binary64

/-!
# Doubles can be compared

Apart from the sign, the bits of a double count up with its magnitude. So numbers compare as whole
numbers do, and the total order, which counts the same bits, puts them in the same order.

* `Binary64.level`: the place of a double among all, the same for both zeros.
* `Binary64.compare_level`: numbers compare as their places do.
* `Binary64.Fields.level_eq`: the place, by the bits.
* `Binary64.isNaN_unpack_pack`: what is computed is undefined only if it was so before rounding.
* `OrderedScalar Float`.
-/

namespace TrackFusion

namespace Binary64

open Float.Model (Format UnpackedFloat)
open Float.Model.UnpackedFloat

/-- Place of a number among all, counted from zero. -/
def level : UnpackedFloat → ℤ
  | .notANumber => 0
  | .infinity s => s.apply (2047 * 2 ^ 52)
  | .zero _ => 0
  | .finite s m e _ => s.apply ((e + 1074) * 2 ^ 52 + m)

/-- The forms that doubles are unpacked to: the leading bit of a significand is its 53rd one, unless
the exponent is the least. -/
def Canonical : UnpackedFloat → Prop
  | .finite _ m e _ => m < 2 ^ 53 ∧ -1074 ≤ e ∧ e ≤ 971 ∧ (2 ^ 52 ≤ m ∨ e = -1074)
  | _ => True

theorem compare_neg_neg (x y : ℤ) : compare (-x) (-y) = (compare x y).swap := by
  rcases lt_trichotomy x y with h | h | h
  · rw [compare_lt_iff_lt.2 h, compare_gt_iff_gt.2 (by omega)]
    rfl
  · rw [h, compare_eq_iff_eq.2 rfl, compare_eq_iff_eq.2 rfl]
    rfl
  · rw [compare_gt_iff_gt.2 h, compare_lt_iff_lt.2 (by omega)]
    rfl

/-- Magnitudes compare by their exponents and then by their significands. -/
theorem compare_magnitude {m m' : ℕ} {e e' : ℤ} {s s' : Sign} {h : 0 < m} {h' : 0 < m'}
    (hc : Canonical (.finite s m e h)) (hc' : Canonical (.finite s' m' e' h')) :
    (compare e e').then (compare m m') =
      compare ((e + 1074) * 2 ^ 52 + (m : ℤ)) ((e' + 1074) * 2 ^ 52 + (m' : ℤ)) := by
  obtain ⟨hm, hmin, -, hlead⟩ := hc
  obtain ⟨hm', hmin', -, hlead'⟩ := hc'
  rcases lt_trichotomy e e' with he | rfl | he
  · have hlt : (e + 1074) * 2 ^ 52 + (m : ℤ) < (e' + 1074) * 2 ^ 52 + (m' : ℤ) := by omega
    rw [compare_lt_iff_lt.2 he, compare_lt_iff_lt.2 hlt]
    rfl
  · rw [compare_eq_iff_eq.2 rfl, Ordering.then]
    rcases lt_trichotomy m m' with hm | rfl | hm
    · have hlt : (e + 1074) * 2 ^ 52 + (m : ℤ) < (e + 1074) * 2 ^ 52 + (m' : ℤ) := by omega
      rw [compare_lt_iff_lt.2 hm, compare_lt_iff_lt.2 hlt]
    · rw [compare_eq_iff_eq.2 rfl, compare_eq_iff_eq.2 rfl]
    · have hgt : (e + 1074) * 2 ^ 52 + (m' : ℤ) < (e + 1074) * 2 ^ 52 + (m : ℤ) := by omega
      rw [compare_gt_iff_gt.2 hm, compare_gt_iff_gt.2 hgt]
  · have hgt : (e' + 1074) * 2 ^ 52 + (m' : ℤ) < (e + 1074) * 2 ^ 52 + (m : ℤ) := by omega
    rw [compare_gt_iff_gt.2 he, compare_gt_iff_gt.2 hgt]
    rfl

theorem magnitude_pos {s : Sign} {m : ℕ} {e : ℤ} {h : 0 < m} (hc : Canonical (.finite s m e h)) :
    0 < (e + 1074) * 2 ^ 52 + (m : ℤ) := by
  obtain ⟨-, hlo, -, -⟩ := hc
  omega

/-- Finite numbers lie between the infinities. -/
theorem level_finite {s : Sign} {m : ℕ} {e : ℤ} {h : 0 < m} (hc : Canonical (.finite s m e h)) :
    -(2047 * 2 ^ 52) < level (.finite s m e h) ∧ level (.finite s m e h) < 2047 * 2 ^ 52 := by
  obtain ⟨hm, hlo, hhi, -⟩ := hc
  cases s <;> simp only [level, Sign.apply] <;> omega

/-- **Numbers compare as their places do.** -/
theorem compare_level {a b : UnpackedFloat} (ha : Canonical a) (hb : Canonical b)
    (ha' : a.isNaN = false) (hb' : b.isNaN = false) :
    a.compare b = some (compare (level a) (level b)) := by
  -- by the kinds of the two numbers: zeros and infinities first, in the end two finite ones
  have hlt {x y : ℤ} (h : x < y) : some Ordering.lt = some (compare x y) :=
    congrArg some (compare_lt_iff_lt.2 h).symm
  have hgt {x y : ℤ} (h : y < x) : some Ordering.gt = some (compare x y) :=
    congrArg some (compare_gt_iff_gt.2 h).symm
  cases a with
  | notANumber => cases ha'
  | infinity s =>
    cases b with
    | notANumber => cases hb'
    | infinity s' => cases s <;> cases s' <;> rfl
    | zero s' => cases s <;> rfl
    | finite s' m' e' h' =>
      cases s
      · exact hlt (level_finite hb).1
      · exact hgt (level_finite hb).2
  | zero s =>
    cases b with
    | notANumber => cases hb'
    | infinity s' => cases s' <;> rfl
    | zero s' => rfl
    | finite s' m' e' h' =>
      cases s'
      · exact hgt (neg_neg_of_pos (magnitude_pos hb))
      · exact hlt (magnitude_pos hb)
  | finite s m e h =>
    cases b with
    | notANumber => cases hb'
    | infinity s' =>
      cases s'
      · cases s <;> exact hgt (level_finite ha).1
      · cases s <;> exact hlt (level_finite ha).2
    | zero s' =>
      cases s
      · exact hlt (neg_neg_of_pos (magnitude_pos ha))
      · exact hgt (magnitude_pos ha)
    | finite s' m' e' h' =>
      cases s <;> cases s'
      · rw [level, level, Sign.apply, Sign.apply, compare_neg_neg, ← compare_magnitude ha hb]
        rfl
      · exact hlt ((neg_neg_of_pos (magnitude_pos ha)).trans (magnitude_pos hb))
      · exact hgt ((neg_neg_of_pos (magnitude_pos hb)).trans (magnitude_pos ha))
      · exact congrArg some (compare_magnitude ha hb)

/-! ### Bits -/

section bits

variable (b : BitVec 64)

/-- The bits of the exponent. -/
def exponentField : ℕ := b.toNat / 2 ^ 52 % 2 ^ 11

/-- The bits of the significand, but for its leading one. -/
def fractionField : ℕ := b.toNat % 2 ^ 52

theorem toNat_unpackExponent :
    (@unpackExponent Format.binary64 b).toNat = exponentField b := by
  simp [unpackExponent, BitVec.extractLsb, exponentField, Nat.shiftRight_eq_div_pow]

theorem toNat_unpackMantissa :
    (@unpackMantissa Format.binary64 b).toNat = fractionField b := by
  simp [unpackMantissa, BitVec.extractLsb, fractionField]

theorem toNat_leading (f : BitVec 52) : (1#1 ++ f).toNat = 2 ^ 52 + f.toNat := by
  rw [BitVec.toNat_append, ← Nat.shiftLeft_add_eq_or_of_lt f.isLt]
  rfl

/-- The sign, read off the first bit. -/
def signField : Sign := if b.toNat < 2 ^ 63 then .positive else .negative

theorem ofBitVec_unpackSign :
    Sign.ofBitVec (@unpackSign Format.binary64 b) = signField b := by
  have hS : (@unpackSign Format.binary64 b).toNat = b.toNat / 2 ^ 63 % 2 := by
    simp [unpackSign, BitVec.extractLsb, Nat.shiftRight_eq_div_pow]
  have hb := b.isLt
  rw [Sign.ofBitVec, signField]
  congr 1
  rw [← BitVec.toNat_inj, hS, BitVec.toNat_ofNat, eq_iff_iff]
  omega

/-- What the fields of a double stand for. -/
inductive Fields : UnpackedFloat → Prop where
  | infinite : exponentField b = 2047 → fractionField b = 0 → Fields (.infinity (signField b))
  | undefined : exponentField b = 2047 → 0 < fractionField b → Fields .notANumber
  | zero : exponentField b = 0 → fractionField b = 0 → Fields (.zero (signField b))
  | subnormal (h) : exponentField b = 0 →
      Fields (.finite (signField b) (fractionField b) (-1074) h)
  | normal (h) : 0 < exponentField b → exponentField b < 2047 →
      Fields (.finite (signField b) (2 ^ 52 + fractionField b) (exponentField b - 1075) h)

theorem fields_unpack : Fields b (unpack Format.binary64 b) := by
  have hE := toNat_unpackExponent b
  have hF := toNat_unpackMantissa b
  have hlt : exponentField b < 2 ^ 11 := Nat.mod_lt _ (by decide)
  have hmax : @unpackExponent Format.binary64 b = -1#11 ↔ exponentField b = 2047 := by
    rw [← BitVec.toNat_inj, hE]
    rfl
  have hmin : @unpackExponent Format.binary64 b = 0#11 ↔ exponentField b = 0 := by
    rw [← BitVec.toNat_inj, hE]
    rfl
  have hnone : @unpackMantissa Format.binary64 b = 0#52 ↔ fractionField b = 0 := by
    rw [← BitVec.toNat_inj, hF]
    rfl
  have hbias : (Format.binary64.exponentBias : ℤ) = 1023 := rfl
  simp only [unpack, ofBitVec_unpackSign]
  split
  · rename_i he
    split
    · rename_i hf
      exact .infinite (hmax.1 he) (hnone.1 hf)
    · rename_i hf
      exact .undefined (hmax.1 he) (Nat.pos_of_ne_zero (mt hnone.2 hf))
  · rename_i he
    split
    · rename_i he'
      split
      · rename_i hf
        exact .zero (hmin.1 he') (hnone.1 hf)
      · have hz := hmin.1 he'
        simp only [hE, hF, hbias, hz]
        exact .subnormal _ hz
    · rename_i he'
      have hpos : 0 < exponentField b := Nat.pos_of_ne_zero (mt hmin.2 he')
      have hne : exponentField b ≠ 2047 := mt hmax.2 he
      simp only [hE, toNat_leading, hF, hbias]
      exact .normal _ hpos (by omega)

variable {b}

/-- Doubles are unpacked to the forms that can be compared. -/
theorem Fields.canonical {x : UnpackedFloat} (h : Fields b x) : Canonical x := by
  have hf : fractionField b < 2 ^ 52 := Nat.mod_lt _ (by decide)
  cases h with
  | infinite => trivial
  | undefined => trivial
  | zero => trivial
  | subnormal => exact ⟨by omega, by omega, by omega, .inr rfl⟩
  | normal h hpos hlt => exact ⟨by omega, by omega, by omega, .inl (by omega)⟩

/-- **The place of a number**: its bits but for the sign, counted in the direction of the sign. -/
theorem Fields.level_eq {x : UnpackedFloat} (h : Fields b x) (hx : x.isNaN = false) :
    level x = if b.toNat < 2 ^ 63 then (b.toNat : ℤ) else 2 ^ 63 - b.toNat := by
  have hsplit : (b.toNat : ℤ) =
      (if b.toNat < 2 ^ 63 then 0 else 2 ^ 63) + exponentField b * 2 ^ 52 + fractionField b := by
    have hb := b.isLt
    simp only [exponentField, fractionField]
    split <;> omega
  have happly (n : ℤ) : (signField b).apply n = if b.toNat < 2 ^ 63 then n else -n := by
    rw [signField]
    split <;> rfl
  -- all forms count their magnitude by the same bits
  cases h with
  | undefined => cases hx
  | infinite he hf | zero he hf | subnormal _ he | normal _ he =>
    simp only [level, happly]
    split at hsplit <;> omega

end bits

/-! ### Comparisons of doubles -/

/-- The bits of a double, counted in the direction of its sign. -/
def place (x : Float) : ℤ :=
  if x.toBits.toNat < 2 ^ 63 then (x.toBits.toNat : ℤ) else 2 ^ 63 - x.toBits.toNat

theorem compare_place {x y : Float} (hx : x.isNaN = false) (hy : y.isNaN = false) :
    x.toModel.unpack.compare y.toModel.unpack = some (compare (place x) (place y)) := by
  have hx' := fields_unpack x.toBits.toBitVec
  have hy' := fields_unpack y.toBits.toBitVec
  have h := compare_level hx'.canonical hy'.canonical hx hy
  rwa [hx'.level_eq hx, hy'.level_eq hy] at h

theorem eq_notANumber {u : UnpackedFloat} (h : u.isNaN = true) : u = .notANumber := by
  cases u with
  | notANumber => rfl
  | _ => cases h

theorem compare_eq_none {a b : UnpackedFloat} (h : a.isNaN = true ∨ b.isNaN = true) :
    a.compare b = none := by
  rcases h with h | h
  · rw [eq_notANumber h, UnpackedFloat.compare]
  · rw [eq_notANumber h]
    cases a <;> rfl

theorem le_iff_place {x y : Float} :
    x ≤ y ↔ x.isNaN = false ∧ y.isNaN = false ∧ place x ≤ place y := by
  have hle : x ≤ y ↔ (x.toModel.unpack.compare y.toModel.unpack).any (·.isLE) = true :=
    decide_eq_true_iff
  rw [hle]
  by_cases hx : x.isNaN = false
  · by_cases hy : y.isNaN = false
    · rw [compare_place hx hy, Option.any_some, Std.isLE_compare]
      exact ⟨fun h => ⟨hx, hy, h⟩, fun h => h.2.2⟩
    · rw [compare_eq_none (.inr (Bool.eq_true_of_not_eq_false hy))]
      exact ⟨nofun, fun h => absurd h.2.1 hy⟩
  · rw [compare_eq_none (.inl (Bool.eq_true_of_not_eq_false hx))]
    exact ⟨nofun, fun h => absurd h.1 hx⟩

theorem lt_iff_place {x y : Float} :
    x < y ↔ x.isNaN = false ∧ y.isNaN = false ∧ place x < place y := by
  have hlt : x < y ↔ (x.toModel.unpack.compare y.toModel.unpack == some .lt) = true :=
    decide_eq_true_iff
  rw [hlt]
  by_cases hx : x.isNaN = false
  · by_cases hy : y.isNaN = false
    · rw [compare_place hx hy, beq_iff_eq, Option.some_inj, compare_lt_iff_lt]
      exact ⟨fun h => ⟨hx, hy, h⟩, fun h => h.2.2⟩
    · rw [compare_eq_none (.inr (Bool.eq_true_of_not_eq_false hy))]
      exact ⟨nofun, fun h => absurd h.2.1 hy⟩
  · rw [compare_eq_none (.inl (Bool.eq_true_of_not_eq_false hx))]
    exact ⟨nofun, fun h => absurd h.1 hx⟩

/-- The total order counts the same bits, but sets the two zeros apart. -/
theorem place_le_of_rank {x y : Float} (h : rank x ≤ rank y) : place x ≤ place y := by
  have hpow : Nat.pow 2 63 = 2 ^ 63 := rfl
  simp only [rank, place, hpow] at *
  split at h <;> split at h <;> simp only [*, if_true, if_false] <;> omega

/-! ### Differences of doubles -/

theorem isNaN_unpack (b : BitVec 64) :
    (unpack Format.binary64 b).isNaN = true ↔
      @unpackExponent Format.binary64 b = -1#11 ∧
        @unpackMantissa Format.binary64 b ≠ 0#52 := by
  simp only [unpack]
  split
  · split <;> simp_all [UnpackedFloat.isNaN]
  · split
    · split <;> simp_all [UnpackedFloat.isNaN]
    · simp_all [UnpackedFloat.isNaN]

/-- Packing makes nothing undefined. -/
theorem isNaN_unpack_pack (u : UnpackedFloat) :
    (unpack Format.binary64 (pack Format.binary64 u)).isNaN = u.isNaN := by
  cases u with
  | notANumber => rfl
  | infinity s => cases s <;> rfl
  | zero s => cases s <;> rfl
  | finite s m e h =>
    refine Bool.eq_false_iff.2 fun hnan => ?_
    obtain ⟨hexp, hmant⟩ := (isNaN_unpack _).1 hnan
    -- an exponent of ones stands for an infinity, which has no fraction
    simp only [pack] at hexp hmant
    split at hexp
    · rename_i hbig
      rw [if_pos hbig, packedInfinity, unpackMantissa_packComponents] at hmant
      exact hmant rfl
    · rename_i hsmall
      split at hexp
      · rw [unpackExponent_packComponents, ← BitVec.toNat_inj, BitVec.toNat_ofNat] at hexp
        have hones : (-1#11).toNat = 2047 := rfl
        omega
      · rw [unpackExponent_packComponents] at hexp
        exact absurd hexp (by decide)

theorem isNaN_round (s : Sign) (m : ℕ) (e : ℤ) :
    (UnpackedFloat.round Format.binary64 s m e).isNaN = false := by
  simp only [UnpackedFloat.round, roundWithAccuracy]
  split <;> rfl

theorem isNaN_normalize (m e : ℤ) (s : Sign) :
    (UnpackedFloat.normalize Format.binary64 m e s).isNaN = false := by
  rw [UnpackedFloat.normalize]
  split
  · exact isNaN_round _ _ _
  · rfl
  · exact isNaN_round _ _ _

theorem isNaN_sub_unpacked {a b : UnpackedFloat} (ha : a.isNaN = false) (hb : b.isFinite = true) :
    (UnpackedFloat.sub Format.binary64 a b).isNaN = false := by
  cases a with
  | notANumber => cases ha
  | infinity s =>
    cases b with
    | notANumber => cases hb
    | infinity s' => cases hb
    | zero s' => rfl
    | finite s' m' e' h' => rfl
  | zero s =>
    cases b with
    | notANumber => cases hb
    | infinity s' => cases hb
    | zero s' => cases s <;> cases s' <;> rfl
    | finite s' m' e' h' => rfl
  | finite s m e h =>
    cases b with
    | notANumber => cases hb
    | infinity s' => cases hb
    | zero s' => rfl
    | finite s' m' e' h' => exact isNaN_normalize _ _ _

end Binary64

instance : OrderedScalar Float where
  lt_iff := by
    intro a b
    rw [Binary64.lt_iff_place, Binary64.le_iff_place, Binary64.le_iff_place]
    constructor
    · rintro ⟨ha, hb, h⟩
      exact ⟨⟨ha, hb, h.le⟩, fun h' => absurd h'.2.2 h.not_ge⟩
    · rintro ⟨⟨ha, hb, -⟩, h⟩
      exact ⟨ha, hb, not_le.1 fun h' => h ⟨hb, ha, h'⟩⟩
  le_trans := by
    intro a b c hab hbc
    rw [Binary64.le_iff_place] at *
    exact ⟨hab.1, hbc.2.1, hab.2.2.trans hbc.2.2⟩
  le_or_le := by
    intro a b ha hb
    rw [Binary64.le_iff_place, Binary64.le_iff_place]
    exact (le_total _ _).imp (fun h => ⟨ha, hb, h⟩) fun h => ⟨hb, ha, h⟩
  isNaN_of_le h := ⟨(Binary64.le_iff_place.1 h).1, (Binary64.le_iff_place.1 h).2.1⟩
  le_of_order h ha hb :=
    Binary64.le_iff_place.2 ⟨ha, hb, Binary64.place_le_of_rank (compare_le_iff_le.1 h)⟩
  order_swap a b := by
    show (compare (Binary64.rank a) (Binary64.rank b)).swap = _
    exact Std.OrientedOrd.eq_swap.symm
  order_trans := by
    intro a b c h h'
    have hab : Binary64.rank a ≤ Binary64.rank b := compare_le_iff_le.1 h
    exact compare_le_iff_le.2 (hab.trans (compare_le_iff_le.1 h'))
  isNaN_sub := by
    intro a b ha hb
    exact (Binary64.isNaN_unpack_pack _).trans (Binary64.isNaN_sub_unpacked ha hb)
  isNaN_of_sub := by
    intro a b h
    by_contra ha
    have hnone : a.toModel.unpack = .notANumber :=
      Binary64.eq_notANumber (Bool.eq_true_of_not_eq_false ha)
    have hsub : (a - b).isNaN = true := by
      refine (Binary64.isNaN_unpack_pack _).trans ?_
      rw [hnone]
      rfl
    rw [show Scalar.isNaN (a - b) = true from hsub] at h
    cases h

end TrackFusion
