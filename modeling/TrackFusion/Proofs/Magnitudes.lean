import TrackFusion.Proofs.Doubles
import TrackFusion.Proofs.Rounded

/-!
# Magnitudes of doubles

Rounding keeps a number within one place of the digits it had, so the exponents of products and
quotients are known up to one or two. A number is lost to an infinity only if its exponent outgrows
the greatest one.

* `Binary64.roundWithAccuracy_eq`: how a number is rounded.
* `Binary64.unpack_pack`: packing loses nothing of a double.
* `Binary64.finite_normalize`: sums are finite up to halfway beyond the greatest double.
* `Binary64.Normal.mul`, `Binary64.Normal.div`: the exponents of products and quotients.
* `Binary64.nonneg_sub`: a difference keeps its sign when it is rounded.
* `RoundedScalar Float`.
-/

namespace TrackFusion

namespace Binary64

open Float.Model (Format UnpackedFloat totalExponent)
open Float.Model.UnpackedFloat

/-! ### Shifts -/

theorem mantissa_shift (em : ExtendedMantissa) (k : ℕ) :
    (em >>> k).mantissa = em.mantissa / 2 ^ k := by
  induction k with
  | zero => exact (Nat.div_one _).symm
  | succ k ih =>
    show (em >>> k).mantissa / 2 = _
    rw [ih, Nat.div_div_eq_div_mul, pow_succ]

theorem rounded_bounds (em : ExtendedMantissa) :
    em.mantissa ≤ em.roundedMantissa ∧ em.roundedMantissa ≤ em.mantissa + 1 := by
  obtain ⟨m, r, s⟩ := em
  cases r <;> cases s <;>
    simp only [ExtendedMantissa.roundedMantissa, ExtendedMantissa.accuracy,
      Accuracy.roundToNearestEven] <;> omega

/-- Rounding goes to the nearest number: without the first bit that goes, it is not up. -/
theorem rounded_le_roundBit (em : ExtendedMantissa) :
    em.roundedMantissa ≤ em.mantissa + em.roundBit.toNat := by
  obtain ⟨m, r, s⟩ := em
  cases r <;> cases s <;>
    simp only [ExtendedMantissa.roundedMantissa, ExtendedMantissa.accuracy,
      Accuracy.roundToNearestEven, Bool.toNat_true, Bool.toNat_false] <;> omega

/-- So it is up by half a unit at most. -/
theorem rounded_shift_le (em : ExtendedMantissa) (k : ℕ) :
    (em >>> (k + 1)).roundedMantissa ≤ (em.mantissa / 2 ^ k + 1) / 2 := by
  rw [← mantissa_shift]
  have h := rounded_le_roundBit (em >>> k).shiftRightOne
  have hbit : (em >>> k).shiftRightOne.roundBit.toNat = (em >>> k).mantissa % 2 := by
    rcases Nat.mod_two_eq_zero_or_one (em >>> k).mantissa with h | h <;>
      simp [ExtendedMantissa.shiftRightOne, h]
  rw [hbit] at h
  refine h.trans (le_of_eq ?_)
  simp only [ExtendedMantissa.shiftRightOne]
  omega

/-! ### Rounding -/

/-- The exponent that a number is rounded to if its leading bit has the number `t`. -/
theorem targetExponent_eq (t : ℤ) : Format.binary64.targetExponent t = max (t - 53) (-1074) := by
  rw [Format.targetExponent]
  rfl

/-- The significand after `k` bits have been rounded off. -/
def rounded (m : ℕ) (a : Accuracy) (k : ℕ) : ℕ :=
  ((ExtendedMantissa.ofMantissaAndAccuracy m a) >>> k).roundedMantissa

theorem mantissa_ofMantissaAndAccuracy (m : ℕ) (a : Accuracy) :
    (ExtendedMantissa.ofMantissaAndAccuracy m a).mantissa = m := by
  cases a with
  | exact => rfl
  | inexact o => cases o <;> rfl

theorem rounded_between (m : ℕ) (a : Accuracy) (k : ℕ) :
    m / 2 ^ k ≤ rounded m a k ∧ rounded m a k ≤ m / 2 ^ k + 1 := by
  have h := rounded_bounds ((ExtendedMantissa.ofMantissaAndAccuracy m a) >>> k)
  rwa [mantissa_shift, mantissa_ofMantissaAndAccuracy] at h

/-- A significand that fits stays as it is. -/
theorem shift_of_lt {m : ℕ} {e : ℤ} (hm : m < 2 ^ 53) (he : -1074 ≤ e) :
    shiftToTargetExponent Format.binary64 m e .exact = (⟨m, false, false⟩, e) := by
  have hlog : m.log2 ≤ 52 := by
    rcases Nat.eq_zero_or_pos m with rfl | hpos
    · decide
    · have := (Nat.log2_lt hpos.ne').2 hm
      omega
  have hk : (Format.binary64.targetExponent (totalExponent m e) - e).toNat = 0 := by
    rw [targetExponent_eq, totalExponent]
    omega
  rw [shiftToTargetExponent, shiftToExponent, hk]
  simp only [Nat.cast_zero, add_zero]
  rfl

/-- A significand that has been rounded up to a power of two loses its last bit. -/
theorem shift_overflow {e : ℤ} (he : -1074 ≤ e) :
    shiftToTargetExponent Format.binary64 (2 ^ 53) e .exact =
      (⟨2 ^ 52, false, false⟩, e + 1) := by
  have hk : (Format.binary64.targetExponent (totalExponent (2 ^ 53) e) - e).toNat = 1 := by
    rw [targetExponent_eq, totalExponent, Nat.log2_two_pow]
    omega
  rw [shiftToTargetExponent, shiftToExponent, hk]
  rfl

/-- **How a number is rounded**: `k` bits go, and one more if that makes the significand too
long. -/
theorem roundWithAccuracy_eq (s : Sign) {m : ℕ} {e : ℤ} (a : Accuracy) {k : ℕ}
    (hk : e + k = max (totalExponent m e - 53) (-1074)) :
    rounded m a k ≤ 2 ^ 53 ∧ roundWithAccuracy Format.binary64 s m e a =
      if h : rounded m a k = 0 then .zero s
      else if rounded m a k < 2 ^ 53 then .finite s (rounded m a k) (e + k) (Nat.pos_of_ne_zero h)
      else .finite s (2 ^ 52) (e + k + 1) (by decide) := by
  have hfirst : shiftToTargetExponent Format.binary64 m e a =
      ((ExtendedMantissa.ofMantissaAndAccuracy m a) >>> k, e + k) := by
    have : (Format.binary64.targetExponent (totalExponent m e) - e).toNat = k := by
      rw [targetExponent_eq]
      omega
    rw [shiftToTargetExponent, shiftToExponent, this]
  have hle : rounded m a k ≤ 2 ^ 53 := by
    have hlog : m.log2 + 1 ≤ 53 + k := by
      rw [totalExponent] at hk
      omega
    have hlt : m < 2 ^ (53 + k) :=
      Nat.lt_log2_self.trans_le (Nat.pow_le_pow_right (by decide) hlog)
    have hdiv : m / 2 ^ k < 2 ^ 53 := by
      rw [Nat.div_lt_iff_lt_mul (by positivity), ← pow_add]
      exact hlt
    exact (rounded_between m a k).2.trans hdiv
  have he : -1074 ≤ e + k := by omega
  refine ⟨hle, ?_⟩
  have hround : ∀ {em : ExtendedMantissa} {e' : ℤ},
      shiftToTargetExponent Format.binary64 (rounded m a k) (e + k) .exact = (em, e') →
        roundWithAccuracy Format.binary64 s m e a =
          if h : em.mantissa = 0 then .zero s
          else .finite s em.mantissa e' (Nat.pos_of_ne_zero h) := by
    intro em e' h
    rw [rounded] at h
    simp only [roundWithAccuracy, hfirst, h]
  by_cases hlt : rounded m a k < 2 ^ 53
  · rw [hround (shift_of_lt hlt he)]
    simp only [hlt, if_true]
  · have hmax : rounded m a k = 2 ^ 53 := by omega
    rw [hround (hmax ▸ shift_overflow he), hmax]
    rfl

/-! ### Packing -/

theorem toNat_packComponents (s : Sign) (e : BitVec 11) (f : BitVec 52) :
    (packComponents Format.binary64 s e f).toNat =
      (s.toBitVec.toNat * 2 ^ 11 + e.toNat) * 2 ^ 52 + f.toNat := by
  have hse : (s.toBitVec ++ e).toNat = s.toBitVec.toNat * 2 ^ 11 + e.toNat := by
    rw [BitVec.toNat_append, ← Nat.shiftLeft_add_eq_or_of_lt e.isLt, Nat.shiftLeft_eq]
  rw [packComponents, BitVec.toNat_append, ← Nat.shiftLeft_add_eq_or_of_lt f.isLt,
    Nat.shiftLeft_eq, hse]

section components

variable (s : Sign) (e : BitVec 11) (f : BitVec 52)

theorem exponentField_packComponents :
    exponentField (packComponents Format.binary64 s e f) = e.toNat := by
  have he := e.isLt
  have hf := f.isLt
  rw [exponentField, toNat_packComponents]
  omega

theorem fractionField_packComponents :
    fractionField (packComponents Format.binary64 s e f) = f.toNat := by
  have hf := f.isLt
  rw [fractionField, toNat_packComponents]
  omega

theorem signField_packComponents : signField (packComponents Format.binary64 s e f) = s := by
  have he := e.isLt
  have hf := f.isLt
  rw [signField, toNat_packComponents]
  cases s with
  | positive => exact if_pos (by simp [Sign.toBitVec]; omega)
  | negative => exact if_neg (by simp [Sign.toBitVec]; omega)

theorem unpack_normal (hpos : 0 < e.toNat) (hlt : e.toNat < 2047) :
    unpack Format.binary64 (packComponents Format.binary64 s e f) =
      .finite s (2 ^ 52 + f.toNat) (e.toNat - 1075) (by positivity) := by
  have h := fields_unpack (packComponents Format.binary64 s e f)
  rw [← exponentField_packComponents s e f] at hpos hlt
  generalize unpack Format.binary64 (packComponents Format.binary64 s e f) = x at h
  cases h with
  | infinite he => omega
  | undefined he => omega
  | zero he => omega
  | subnormal _ he => omega
  | normal =>
    simp only [signField_packComponents, fractionField_packComponents,
      exponentField_packComponents]

theorem unpack_subnormal (hf : 0 < f.toNat) :
    unpack Format.binary64 (packComponents Format.binary64 s 0 f) =
      .finite s f.toNat (-1074) hf := by
  have h := fields_unpack (packComponents Format.binary64 s 0 f)
  have he := exponentField_packComponents s 0 f
  rw [← fractionField_packComponents s 0 f] at hf
  have h0 : (0 : BitVec 11).toNat = 0 := rfl
  generalize unpack Format.binary64 (packComponents Format.binary64 s 0 f) = x at h
  cases h with
  | infinite he' => omega
  | undefined he' => omega
  | zero _ hf' => omega
  | subnormal => simp only [signField_packComponents, fractionField_packComponents]
  | normal _ hpos => omega

end components

/-- What is packed can be unpacked again, if it is a double. -/
theorem unpack_pack {u : UnpackedFloat} (h : Canonical u) :
    unpack Format.binary64 (pack Format.binary64 u) = u := by
  cases u with
  | notANumber => rfl
  | infinity s => cases s <;> rfl
  | zero s => cases s <;> rfl
  | finite s m e hm =>
    obtain ⟨hlt, hmin, hmax, hlead⟩ := h
    have hbias : (e + Format.binary64.exponentBias +
        Format.binary64.mantissaBitsWithoutImplicit).toNat = (e + 1075).toNat := by
      show (e + ((1023 : ℕ) : ℤ) + ((52 : ℕ) : ℤ)).toNat = _
      omega
    have hfits : ¬ 2 ^ Format.binary64.exponentBits ≤ (e + 1075).toNat + 1 := by
      show ¬ 2 ^ 11 ≤ _
      omega
    simp only [pack, hbias, if_neg hfits]
    have hm52 : (BitVec.ofNat 52 m).toNat = m % 2 ^ 52 := BitVec.toNat_ofNat m 52
    by_cases hnormal : 2 ^ 52 ≤ m
    · have hlog : m.log2 + 1 = Format.binary64.mantissaBits := by
        rw [(Nat.log2_eq_iff hm.ne').2 ⟨hnormal, hlt⟩]
        rfl
      have he11 : (BitVec.ofNat 11 (e + 1075).toNat).toNat = (e + 1075).toNat := by
        rw [BitVec.toNat_ofNat]
        omega
      rw [if_pos hlog]
      refine (unpack_normal s (BitVec.ofNat 11 (e + 1075).toNat) (BitVec.ofNat 52 m)
        (by omega) (by omega)).trans ?_
      simp only [he11, hm52]
      congr 1 <;> omega
    · have hlog : ¬ m.log2 + 1 = Format.binary64.mantissaBits := by
        have := (Nat.log2_lt hm.ne').2 (not_le.1 hnormal)
        show ¬ m.log2 + 1 = 53
        omega
      rw [if_neg hlog]
      refine (unpack_subnormal s (BitVec.ofNat 52 m) (by omega)).trans ?_
      simp only [hm52]
      congr 1 <;> omega

/-! ### What rounding leads to -/

/-- A finite double. -/
def Finite (u : UnpackedFloat) : Prop := Canonical u ∧ u.isFinite = true

/-- A finite number with a leading bit in its place and an exponent in some range. -/
def Normal (lo hi : ℤ) : UnpackedFloat → Prop
  | .finite _ m e _ => 2 ^ 52 ≤ m ∧ m < 2 ^ 53 ∧ lo ≤ e ∧ e ≤ hi
  | _ => False

theorem Normal.mono {lo lo' hi hi' : ℤ} {u : UnpackedFloat} (h : Normal lo hi u) (hlo : lo' ≤ lo)
    (hhi : hi ≤ hi') : Normal lo' hi' u := by
  cases u with
  | finite s m e hm =>
    obtain ⟨hlead, hlt, hle, hge⟩ := h
    exact ⟨hlead, hlt, hlo.trans hle, hge.trans hhi⟩
  | _ => exact h

theorem Normal.finite {lo hi : ℤ} {u : UnpackedFloat} (h : Normal lo hi u) (hlo : -1074 ≤ lo)
    (hhi : hi ≤ 971) : Finite u := by
  cases u with
  | finite s m e hm =>
    obtain ⟨hlead, hlt, hle, hge⟩ := h
    exact ⟨⟨hlt, hlo.trans hle, hge.trans hhi, .inl hlead⟩, rfl⟩
  | _ => exact absurd h id

/-- The leading bit of a significand that is rounded. -/
theorem two_pow_le_rounded {m : ℕ} (a : Accuracy) {k : ℕ} (hk : m.log2 = 52 + k) :
    2 ^ 52 ≤ rounded m a k := by
  have hm : m ≠ 0 := by
    rintro rfl
    have : Nat.log2 0 = 0 := by decide
    omega
  refine le_trans ?_ (rounded_between m a k).1
  rw [Nat.le_div_iff_mul_le (by positivity), ← pow_add, ← hk]
  exact Nat.log2_self_le hm

/-- **A rounded number is finite** if its exponent is, or nearly so and its significand stays
below the next power of two. -/
theorem finite_roundWithAccuracy (s : Sign) {m : ℕ} {e : ℤ} (a : Accuracy) {k : ℕ}
    (hk : e + k = max (totalExponent m e - 53) (-1074))
    (hmax : e + k ≤ 970 ∨ e + k = 971 ∧ rounded m a k < 2 ^ 53) :
    Finite (roundWithAccuracy Format.binary64 s m e a) := by
  obtain ⟨hle, heq⟩ := roundWithAccuracy_eq s a hk
  rw [heq]
  split
  · exact ⟨trivial, rfl⟩
  · split
    · rename_i hlt
      refine ⟨⟨hlt, by omega, by omega, ?_⟩, rfl⟩
      rcases Int.lt_or_le (totalExponent m e - 53) (-1074) with hmin | hmin
      · right
        omega
      · left
        refine two_pow_le_rounded a ?_
        rw [totalExponent] at *
        omega
    · exact ⟨⟨by decide, by omega, by omega, .inl (by decide)⟩, rfl⟩

/-- Rounding moves the leading bit by one at most. -/
theorem normal_roundWithAccuracy (s : Sign) {m : ℕ} {e : ℤ} (a : Accuracy)
    (hlo : -1021 ≤ totalExponent m e) (he : e ≤ totalExponent m e - 53) :
    Normal (totalExponent m e - 53) (totalExponent m e - 52)
      (roundWithAccuracy Format.binary64 s m e a) := by
  obtain ⟨k, hk⟩ := Int.eq_ofNat_of_zero_le (sub_nonneg.2 he)
  have hlead : 2 ^ 52 ≤ rounded m a k := by
    refine two_pow_le_rounded a ?_
    rw [totalExponent] at hk
    omega
  have h0 : rounded m a k ≠ 0 := by omega
  obtain ⟨hle, heq⟩ := roundWithAccuracy_eq s a (m := m) (e := e) (k := k) (by omega)
  rw [heq, dif_neg h0]
  split
  · rename_i hlt
    exact ⟨hlead, hlt, by omega, by omega⟩
  · exact ⟨by decide, by decide, by omega, by omega⟩

theorem log2_shiftLeft {m : ℕ} (hm : 0 < m) (j : ℕ) : (m <<< j).log2 = m.log2 + j := by
  induction j with
  | zero => rfl
  | succ j ih =>
    rw [Nat.shiftLeft_succ, Nat.log2_two_mul (by rw [Nat.shiftLeft_eq]; positivity), ih]
    rfl

/-- Before rounding, zeros are appended to a significand that is too short. -/
theorem round_eq (s : Sign) {m : ℕ} (hm : 0 < m) (e : ℤ) :
    ∃ m' e', 0 < m' ∧ totalExponent m' e' = totalExponent m e ∧
      e' = min e (max (totalExponent m e - 53) (-1074)) ∧ m' = m * 2 ^ (e - e').toNat ∧
      UnpackedFloat.round Format.binary64 s m e =
        roundWithAccuracy Format.binary64 s m' e' .exact := by
  refine ⟨m <<< (e - max (totalExponent m e - 53) (-1074)).toNat,
    e - (e - max (totalExponent m e - 53) (-1074)).toNat, ?_, ?_, by omega, ?_, ?_⟩
  · rw [Nat.shiftLeft_eq]
    positivity
  · rw [totalExponent, totalExponent, log2_shiftLeft hm]
    push_cast
    omega
  · rw [Nat.shiftLeft_eq, sub_sub_cancel, Int.toNat_natCast]
  · rw [UnpackedFloat.round, targetExponent_eq]
    rfl

theorem normal_round (s : Sign) {m : ℕ} (hm : 0 < m) {e : ℤ} (hlo : -1021 ≤ totalExponent m e) :
    Normal (totalExponent m e - 53) (totalExponent m e - 52)
      (UnpackedFloat.round Format.binary64 s m e) := by
  obtain ⟨m', e', -, htotal, he', -, heq⟩ := round_eq s hm e
  rw [heq, ← htotal]
  exact normal_roundWithAccuracy s .exact (by omega) (by omega)

/-- **A sum is finite** if it is less than the number halfway between the greatest double and the
power of two above it. -/
theorem finite_normalize {m g : ℤ} (s : Sign) (hg : g ≤ 970)
    (hm : m.natAbs < (2 ^ 54 - 1) * 2 ^ (970 - g).toNat) :
    Finite (UnpackedFloat.normalize Format.binary64 m g s) := by
  have hround (s' : Sign) {n : ℕ} (hn : 0 < n) (hlt : n < (2 ^ 54 - 1) * 2 ^ (970 - g).toNat) :
      Finite (UnpackedFloat.round Format.binary64 s' n g) := by
    obtain ⟨m', e', -, htotal, he', hscale, heq⟩ := round_eq s' hn g
    have hlog : n.log2 + 1 ≤ 54 + (970 - g).toNat := by
      refine (Nat.log2_lt hn.ne').2 (hlt.trans_le ?_)
      rw [pow_add]
      exact Nat.mul_le_mul_right _ (by decide)
    have hmax : totalExponent n g ≤ 1024 := by
      rw [totalExponent]
      omega
    obtain ⟨k, hk⟩ : ∃ k : ℕ, e' + k = max (totalExponent m' e' - 53) (-1074) :=
      ⟨(max (totalExponent m' e' - 53) (-1074) - e').toNat, by omega⟩
    rw [heq]
    refine finite_roundWithAccuracy s' .exact hk ?_
    rcases Int.lt_or_le (totalExponent n g) 1024 with hsmall | hbig
    · left
      omega
    -- at the top, at least one bit is rounded off
    · right
      obtain ⟨j, rfl⟩ : ∃ j, k = j + 1 := ⟨k - 1, by omega⟩
      refine ⟨by omega, lt_of_le_of_lt (rounded_shift_le _ j) ?_⟩
      have hj : j = (970 - g).toNat := by omega
      have hsame : m' = n := by
        rw [hscale, show (g - e').toNat = 0 by omega, pow_zero, mul_one]
      rw [mantissa_ofMantissaAndAccuracy, hsame, hj]
      have hdiv : n / 2 ^ (970 - g).toNat < 2 ^ 54 - 1 :=
        (Nat.div_lt_iff_lt_mul (by positivity)).2 hlt
      omega
  rw [UnpackedFloat.normalize]
  split
  · rename_i h
    exact hround _ (by rw [compare_lt_iff_lt] at h; omega) (by omega)
  · exact ⟨trivial, rfl⟩
  · rename_i h
    exact hround _ (by rw [compare_gt_iff_gt] at h; omega) (by omega)

/-! ### Sums, products and quotients -/

/-- Zero, or a finite number far below the greatest one. -/
def Small : UnpackedFloat → Prop
  | .finite _ m e _ => m < 2 ^ 53 ∧ e ≤ 12
  | .zero _ => True
  | _ => False

theorem Normal.small {lo hi : ℤ} {u : UnpackedFloat} (h : Normal lo hi u) (hhi : hi ≤ 12) :
    Small u := by
  cases u with
  | finite s m e hm =>
    obtain ⟨-, hlt, -, hge⟩ := h
    exact ⟨hlt, hge.trans hhi⟩
  | _ => exact absurd h id

/-- What a small number adds to a finite one. -/
theorem small_sum {m₁ m₂ : ℕ} {e₁ e₂ g : ℤ} (hm₁ : m₁ < 2 ^ 53) (he₁ : e₁ ≤ 971) (hm₂ : m₂ < 2 ^ 53)
    (he₂ : e₂ ≤ 12) (hg₁ : g ≤ e₁) (hg₂ : g ≤ e₂) :
    m₁ * 2 ^ (e₁ - g).toNat + m₂ * 2 ^ (e₂ - g).toNat < (2 ^ 54 - 1) * 2 ^ (970 - g).toNat := by
  have hbig : m₁ * 2 ^ (e₁ - g).toNat ≤ (2 ^ 54 - 2) * 2 ^ (970 - g).toNat :=
    calc m₁ * 2 ^ (e₁ - g).toNat
        ≤ (2 ^ 53 - 1) * 2 ^ ((970 - g).toNat + 1) :=
          Nat.mul_le_mul (by omega) (Nat.pow_le_pow_right (by decide) (by omega))
      _ = (2 ^ 54 - 2) * 2 ^ (970 - g).toNat := by
          rw [pow_succ]
          ring
  have hsmall : m₂ * 2 ^ (e₂ - g).toNat < 2 ^ (970 - g).toNat :=
    calc m₂ * 2 ^ (e₂ - g).toNat
        < 2 ^ 53 * 2 ^ (e₂ - g).toNat := Nat.mul_lt_mul_of_pos_right hm₂ (by positivity)
      _ = 2 ^ (53 + (e₂ - g).toNat) := (pow_add _ _ _).symm
      _ ≤ 2 ^ (970 - g).toNat := Nat.pow_le_pow_right (by decide) (by omega)
  omega

theorem natAbs_apply (s : Sign) (n : ℕ) : (s.apply (n : ℤ)).natAbs = n := by
  cases s <;> simp [Sign.apply]

theorem finite_add {a b : UnpackedFloat} (ha : Finite a) (hb : Finite b) (hsmall : Small b) :
    Finite (UnpackedFloat.add Format.binary64 a b) := by
  obtain ⟨hca, hfa⟩ := ha
  cases a with
  | notANumber => cases hfa
  | infinity => cases hfa
  | zero s₁ =>
    cases b with
    | notANumber => cases hb.2
    | infinity => cases hb.2
    | zero s₂ => cases s₁ <;> cases s₂ <;> exact ⟨trivial, rfl⟩
    | finite s₂ m₂ e₂ h₂ => exact hb
  | finite s₁ m₁ e₁ h₁ =>
    cases b with
    | notANumber => cases hb.2
    | infinity => cases hb.2
    | zero s₂ => exact ⟨hca, rfl⟩
    | finite s₂ m₂ e₂ h₂ =>
      refine finite_normalize .positive (min_le_of_right_le (by have := hsmall.2; omega))
        ((Int.natAbs_add_le _ _).trans_lt ?_)
      simp only [natAbs_apply, Nat.shiftLeft_eq]
      exact small_sum hca.1 hca.2.2.1 hsmall.1 hsmall.2 (min_le_left _ _) (min_le_right _ _)

theorem finite_sub {a b : UnpackedFloat} (ha : Finite a) (hsmall : Small a) (hb : Finite b) :
    Finite (UnpackedFloat.sub Format.binary64 a b) := by
  obtain ⟨hcb, hfb⟩ := hb
  cases b with
  | notANumber => cases hfb
  | infinity => cases hfb
  | zero s₂ =>
    cases a with
    | notANumber => cases ha.2
    | infinity => cases ha.2
    | zero s₁ => cases s₁ <;> cases s₂ <;> exact ⟨trivial, rfl⟩
    | finite s₁ m₁ e₁ h₁ => exact ha
  | finite s₂ m₂ e₂ h₂ =>
    cases a with
    | notANumber => cases ha.2
    | infinity => cases ha.2
    | zero s₁ => exact ⟨hcb, rfl⟩
    | finite s₁ m₁ e₁ h₁ =>
      refine finite_normalize .positive (min_le_of_left_le (by have := hsmall.2; omega))
        ((Int.natAbs_sub_le _ _).trans_lt ?_)
      simp only [natAbs_apply, Nat.shiftLeft_eq]
      rw [Nat.add_comm]
      exact small_sum hcb.1 hcb.2.2.1 hsmall.1 hsmall.2 (min_le_right _ _) (min_le_left _ _)

section range

variable {l h l' h' : ℤ} {a b : UnpackedFloat}

/-- The exponent of a product. -/
theorem Normal.mul (ha : Normal l h a) (hb : Normal l' h' b) (hmin : -1126 ≤ l + l') :
    Normal (l + l' + 52) (h + h' + 54) (UnpackedFloat.mul Format.binary64 a b) := by
  cases a with
  | finite s₁ m₁ e₁ h₁ =>
    cases b with
    | finite s₂ m₂ e₂ h₂ =>
      obtain ⟨hlead₁, hlt₁, hle₁, hge₁⟩ := ha
      obtain ⟨hlead₂, hlt₂, hle₂, hge₂⟩ := hb
      have hm : 0 < m₁ * m₂ := Nat.mul_pos h₁ h₂
      have hlo : 104 ≤ (m₁ * m₂).log2 := by
        rw [Nat.le_log2 hm.ne', show (2 ^ 104 : ℕ) = 2 ^ 52 * 2 ^ 52 from rfl]
        exact Nat.mul_le_mul hlead₁ hlead₂
      have hhi : (m₁ * m₂).log2 < 106 := by
        rw [Nat.log2_lt hm.ne', show (2 ^ 106 : ℕ) = 2 ^ 53 * 2 ^ 53 from rfl]
        exact Nat.mul_lt_mul'' hlt₁ hlt₂
      have htotal : totalExponent (m₁ * m₂) (e₁ + e₂) = (m₁ * m₂).log2 + 1 + (e₁ + e₂) := rfl
      exact (normal_roundWithAccuracy (s₁ * s₂) .exact (by omega) (by omega)).mono (by omega)
        (by omega)
    | _ => exact absurd hb id
  | _ => exact absurd ha id

/-- The exponent of a quotient. -/
theorem Normal.div (ha : Normal l h a) (hb : Normal l' h' b) (hmin : -1021 ≤ l - h') :
    Normal (l - h' - 53) (h - l' - 51) (UnpackedFloat.div Format.binary64 a b) := by
  cases a with
  | finite s₁ m₁ e₁ h₁ =>
    cases b with
    | finite s₂ m₂ e₂ h₂ =>
      obtain ⟨hlead₁, hlt₁, hle₁, hge₁⟩ := ha
      obtain ⟨hlead₂, hlt₂, hle₂, hge₂⟩ := hb
      have hlog₁ : m₁.log2 = 52 := (Nat.log2_eq_iff h₁.ne').2 ⟨hlead₁, hlt₁⟩
      have hlog₂ : m₂.log2 = 52 := (Nat.log2_eq_iff h₂.ne').2 ⟨hlead₂, hlt₂⟩
      have htarget : min (e₁ - e₂) (Format.binary64.targetExponent
          (totalExponent m₁ e₁ - totalExponent m₂ e₂)) = e₁ - e₂ - 53 := by
        rw [targetExponent_eq, totalExponent, totalExponent]
        omega
      have hshift : (e₁ - e₂ - (e₁ - e₂ - 53)).toNat = 53 := by omega
      -- the quotient has 53 digits or 54
      have hlo : 2 ^ 52 ≤ m₁ <<< 53 / m₂ := by
        rw [Nat.le_div_iff_mul_le h₂, Nat.shiftLeft_eq]
        exact (Nat.mul_comm _ _).trans_le (Nat.mul_le_mul hlt₂.le hlead₁ |>.trans
          (Nat.mul_comm _ _).le)
      have hhi : m₁ <<< 53 / m₂ < 2 ^ 54 := by
        rw [Nat.div_lt_iff_lt_mul h₂, Nat.shiftLeft_eq]
        omega
      have hq : 0 < m₁ <<< 53 / m₂ := by omega
      have hlog : 52 ≤ (m₁ <<< 53 / m₂).log2 := (Nat.le_log2 hq.ne').2 hlo
      have hlog' : (m₁ <<< 53 / m₂).log2 < 54 := (Nat.log2_lt hq.ne').2 hhi
      have htotal : totalExponent (m₁ <<< 53 / m₂) (e₁ - e₂ - 53) =
          (m₁ <<< 53 / m₂).log2 + 1 + (e₁ - e₂ - 53) := rfl
      simp only [UnpackedFloat.div, divCore, htarget, hshift]
      exact (normal_roundWithAccuracy _ _ (by omega) (by omega)).mono (by omega) (by omega)
    | _ => exact absurd hb id
  | _ => exact absurd ha id

end range

/-! ### Signs -/

/-- No negative number. Negative zeros count as zeros, and what is undefined has no sign. -/
def Nonneg : UnpackedFloat → Prop
  | .infinity s => s = .positive
  | .finite s _ _ _ => s = .positive
  | _ => True

theorem nonneg_round (m : ℕ) (e : ℤ) :
    Nonneg (UnpackedFloat.round Format.binary64 .positive m e) := by
  simp only [UnpackedFloat.round, roundWithAccuracy]
  split
  · trivial
  · rfl

theorem nonneg_normalize {m : ℤ} (hm : 0 ≤ m) (g : ℤ) (s : Sign) :
    Nonneg (UnpackedFloat.normalize Format.binary64 m g s) := by
  rw [UnpackedFloat.normalize]
  split
  · rename_i h
    exact absurd (compare_lt_iff_lt.1 h) hm.not_gt
  · trivial
  · exact nonneg_round _ _

/-- Magnitudes are in the order of their places, whatever the unit is. -/
theorem magnitude_le {m m' : ℕ} {e e' g : ℤ} {s s' : Sign} {h : 0 < m} {h' : 0 < m'}
    (hc : Canonical (.finite s m e h)) (hc' : Canonical (.finite s' m' e' h')) (hg : g ≤ e)
    (hle : (e + 1074) * 2 ^ 52 + (m : ℤ) ≤ (e' + 1074) * 2 ^ 52 + (m' : ℤ)) :
    m * 2 ^ (e - g).toNat ≤ m' * 2 ^ (e' - g).toNat := by
  obtain ⟨hm, hmin, -, hlead⟩ := hc
  obtain ⟨hm', hmin', -, hlead'⟩ := hc'
  rcases lt_trichotomy e e' with he | rfl | he
  -- the greater one has its leading bit in place, so one bit more is enough
  · calc m * 2 ^ (e - g).toNat
        ≤ 2 ^ 53 * 2 ^ (e - g).toNat := Nat.mul_le_mul_right _ hm.le
      _ = 2 ^ 52 * 2 ^ ((e - g).toNat + 1) := by ring
      _ ≤ m' * 2 ^ (e' - g).toNat :=
        Nat.mul_le_mul (by omega) (Nat.pow_le_pow_right (by decide) (by omega))
  · exact Nat.mul_le_mul_right _ (by omega)
  · omega

/-- Numbers are in the order of their places, whatever the unit is. -/
theorem apply_le {m m' : ℕ} {e e' g : ℤ} {s s' : Sign} {h : 0 < m} {h' : 0 < m'}
    (hc : Canonical (.finite s m e h)) (hc' : Canonical (.finite s' m' e' h')) (hg : g ≤ e)
    (hg' : g ≤ e') (hle : level (.finite s m e h) ≤ level (.finite s' m' e' h')) :
    s.apply ((m * 2 ^ (e - g).toNat : ℕ) : ℤ) ≤ s'.apply ((m' * 2 ^ (e' - g).toNat : ℕ) : ℤ) := by
  have hpos := magnitude_pos hc
  have hpos' := magnitude_pos hc'
  cases s <;> cases s' <;> simp only [level, Sign.apply] at hle ⊢
  · have := magnitude_le hc' hc hg' (by omega)
    omega
  · omega
  · omega
  · have := magnitude_le hc hc' hg hle
    omega

/-- **Rounding keeps the sign of a difference.** -/
theorem nonneg_sub {a b : UnpackedFloat} (ha : Canonical a) (hb : Canonical b)
    (hle : level a ≤ level b) : Nonneg (UnpackedFloat.sub Format.binary64 b a) := by
  -- by the kinds of the two numbers: only two finite ones are subtracted
  cases a with
  | notANumber => cases b <;> trivial
  | infinity s =>
    cases b with
    | notANumber => trivial
    | infinity s' =>
      cases s <;> cases s'
      · trivial
      · rfl
      · exact absurd hle (by decide)
      · trivial
    | zero s' =>
      cases s with
      | negative => rfl
      | positive => exact absurd hle (by simp [level, Sign.apply])
    | finite s' m' e' h' =>
      have := level_finite hb
      cases s with
      | negative => rfl
      | positive => exact absurd (hle.trans_lt this.2) (lt_irrefl _)
  | zero s =>
    cases b with
    | notANumber => trivial
    | infinity s' =>
      cases s' with
      | positive => rfl
      | negative => exact absurd hle (by simp [level, Sign.apply])
    | zero s' => cases s <;> cases s' <;> trivial
    | finite s' m' e' h' =>
      cases s' with
      | positive => rfl
      | negative => exact absurd hle (not_le.2 (neg_neg_of_pos (magnitude_pos hb)))
  | finite s m e h =>
    cases b with
    | notANumber => trivial
    | infinity s' =>
      have := level_finite ha
      cases s' with
      | positive => rfl
      | negative => exact absurd (this.1.trans_le hle) (lt_irrefl _)
    | zero s' =>
      cases s with
      | negative => rfl
      | positive => exact absurd hle (not_le.2 (magnitude_pos ha))
    | finite s' m' e' h' =>
      refine nonneg_normalize ?_ _ _
      simp only [Nat.shiftLeft_eq]
      exact sub_nonneg.2 (apply_le ha hb (min_le_right e' e) (min_le_left e' e) hle)

/-- The bits of such a number begin with a zero, but for a negative zero, which has no others. -/
theorem level_pack {u : UnpackedFloat} (h : Nonneg u) :
    0 ≤ level (unpack Format.binary64 (pack Format.binary64 u)) := by
  have hbits (e : BitVec 11) (f : BitVec 52) :
      (packComponents Format.binary64 .positive e f).toNat < 2 ^ 63 := by
    have he := e.isLt
    have hf := f.isLt
    rw [toNat_packComponents, Sign.toBitVec]
    show (0 * 2 ^ 11 + e.toNat) * 2 ^ 52 + f.toNat < 2 ^ 63
    omega
  cases u with
  | notANumber => decide
  | infinity s =>
    obtain rfl : s = .positive := h
    decide
  | zero s => cases s <;> decide
  | finite s m e hm =>
    obtain rfl : s = .positive := h
    have hnan := isNaN_unpack_pack (.finite .positive m e hm)
    rw [(fields_unpack _).level_eq hnan, if_pos]
    · exact Int.natCast_nonneg _
    · simp only [pack]
      split
      · exact hbits _ _
      · split
        · exact hbits _ _
        · exact hbits _ _

/-! ### Doubles -/

theorem unpack_toModel (x : Float) : Canonical x.toModel.unpack :=
  (fields_unpack x.toBits.toBitVec).canonical

theorem finite_iff {x : Float} : Finite x.toModel.unpack ↔ x.isFinite = true :=
  ⟨fun h => h.2, fun h => ⟨unpack_toModel x, h⟩⟩

section range

variable {l h l' h' : ℤ} {x y : Float}

theorem normal_mul (hx : Normal l h x.toModel.unpack) (hy : Normal l' h' y.toModel.unpack)
    (hmin : -1126 ≤ l + l') (hmax : h + h' ≤ 917) :
    Normal (l + l' + 52) (h + h' + 54) (x * y).toModel.unpack := by
  have hxy := hx.mul hy hmin
  rwa [show (x * y).toModel.unpack = _ from
    unpack_pack (hxy.finite (by omega) (by omega)).1]

theorem normal_div (hx : Normal l h x.toModel.unpack) (hy : Normal l' h' y.toModel.unpack)
    (hmin : -1021 ≤ l - h') (hmax : h - l' ≤ 1022) :
    Normal (l - h' - 53) (h - l' - 51) (x / y).toModel.unpack := by
  have hxy := hx.div hy hmin
  rwa [show (x / y).toModel.unpack = _ from
    unpack_pack (hxy.finite (by omega) (by omega)).1]

end range

theorem normal_one : Normal (-52) (-52) (1.0 : Float).toModel.unpack :=
  show Normal (-52) (-52) (.finite .positive (2 ^ 52) (-52) (by decide)) from
    ⟨by decide, by decide, by decide, by decide⟩

/-- Long whole numbers are read with zeros appended to them. -/
theorem ofScientific_ofNat {n : ℕ} (hpos : 0 < n) :
    UnpackedFloat.ofScientific Format.binary64 n 0 =
      roundWithAccuracy Format.binary64 .positive (n <<< 53) (-53) .exact := by
  have hmax : ¬ ((0 : ℤ) > 2 ^ Format.binary64.exponentBits) := by decide
  have hmin : ¬ ((0 : ℤ) < -(2 ^ Format.binary64.exponentBits + (n.log2 : ℤ))) := by
    rw [not_lt, neg_nonpos]
    positivity
  rw [UnpackedFloat.ofScientific, dif_neg hpos.ne', if_neg hmax, if_neg hmin, if_pos le_rfl]
  simp only [UnpackedFloat.mul, Int.toNat_zero, pow_zero, Nat.mul_one]
  rfl

/-- The exponent of a whole number of 64 bits. -/
theorem normal_ofNat {n : ℕ} (hpos : 0 < n) (hlt : n < 2 ^ 64) :
    Normal (-52) 12 (Float.ofNat n).toModel.unpack := by
  have hlog : n.log2 < 64 := (Nat.log2_lt hpos.ne').2 hlt
  by_cases hsmall : n < 2 ^ 53
  -- a short one is converted from a word, and multiplied by one
  · have hdef : Float.ofNat n = n.toUInt64.toFloat * 1.0 := by
      show Float.ofScientific n false 0 = _
      rw [Float.ofScientific, dif_pos ⟨hsmall, by decide⟩]
      rfl
    have htotal : totalExponent n 0 = n.log2 + 1 + 0 := rfl
    have hlog53 : n.log2 < 53 := (Nat.log2_lt hpos.ne').2 hsmall
    have hround : Normal (-52) 1 (UnpackedFloat.round Format.binary64 .positive n 0) :=
      (normal_round .positive hpos (by omega)).mono (by omega) (by omega)
    have hword : n.toUInt64.toNat = n := Nat.mod_eq_of_lt hlt
    have hfloat : n.toUInt64.toFloat.toModel.unpack =
        UnpackedFloat.round Format.binary64 .positive n 0 := by
      show unpack Format.binary64 (pack Format.binary64
        (UnpackedFloat.normalize Format.binary64 (n.toUInt64.toNat : ℤ) 0 .positive)) = _
      rw [hword, UnpackedFloat.normalize, compare_gt_iff_gt.2 (Int.natCast_pos.2 hpos)]
      exact unpack_pack (hround.finite (by decide) (by decide)).1
    rw [← hfloat] at hround
    rw [hdef]
    exact (normal_mul hround normal_one (by decide) (by decide)).mono (by decide) (by decide)
  · have hdef : (Float.ofNat n).toModel = Float.Model.ofScientific n 0 := by
      show (Float.ofScientific n false 0).toModel = _
      rw [Float.ofScientific, dif_neg fun h => hsmall h.1]
      rfl
    have hshift : (n <<< 53).log2 = n.log2 + 53 := log2_shiftLeft hpos 53
    rw [hdef]
    show Normal _ _ (unpack Format.binary64 (pack Format.binary64
      (UnpackedFloat.ofScientific Format.binary64 n 0)))
    rw [ofScientific_ofNat hpos]
    generalize n <<< 53 = m at hshift
    have htotal : totalExponent m (-53) = m.log2 + 1 + -53 := rfl
    have hround : Normal (-52) 12 (roundWithAccuracy Format.binary64 .positive m (-53) .exact) :=
      (normal_roundWithAccuracy .positive .exact (by omega) (by omega)).mono (by omega)
        (by omega)
    rwa [unpack_pack (hround.finite (by decide) (by decide)).1]

/-! ### Costs -/

theorem normal_tieBreakTotal :
    Normal (-82) (-82) (Association.tieBreakTotal : Float).toModel.unpack :=
  show Normal (-82) (-82) (.finite .positive 4835703278458517 (-82) (by decide)) from
    ⟨by decide, by decide, by decide, by decide⟩

/-- The charge of a row, which grows with its number, is tiny. -/
theorem charge_small {i m : ℕ} (hi : i < m) (hm : m < 2 ^ 64) :
    Finite (Float.ofNat i * (Association.tieBreakTotal / (Float.ofNat m * Float.ofNat m))
      ).toModel.unpack ∧
    Small (Float.ofNat i * (Association.tieBreakTotal / (Float.ofNat m * Float.ofNat m))
      ).toModel.unpack := by
  have hsize := normal_ofNat (Nat.zero_lt_of_lt hi) hm
  have hsquare := normal_mul hsize hsize (by decide) (by decide)
  have hstep := normal_div normal_tieBreakTotal hsquare (by decide) (by decide)
  rcases Nat.eq_zero_or_pos i with rfl | hpos
  · generalize Association.tieBreakTotal / (Float.ofNat m * Float.ofNat m) = step at hstep
    have hzero : (Float.ofNat 0 * step).toModel.unpack = unpack Format.binary64
        (pack Format.binary64 (UnpackedFloat.mul Format.binary64 (.zero .positive)
          step.toModel.unpack)) := rfl
    have hmul : ∃ s, UnpackedFloat.mul Format.binary64 (.zero .positive) step.toModel.unpack =
        .zero s := by
      cases hu : step.toModel.unpack with
      | finite s m e hm => exact ⟨_, rfl⟩
      | _ => rw [hu] at hstep; exact absurd hstep id
    obtain ⟨s, hs⟩ := hmul
    rw [hzero, hs]
    cases s <;> exact ⟨⟨trivial, rfl⟩, trivial⟩
  · have hcharge := normal_mul (normal_ofNat hpos (hi.trans hm)) hstep (by decide) (by decide)
    exact ⟨hcharge.finite (by decide) (by decide), hcharge.small (by decide)⟩

theorem isFinite_cost {s : Float} {i m : ℕ} (hs : s.isFinite = true) (hi : i < m)
    (hm : m < 2 ^ 64) :
    (1.0 - s + Float.ofNat i * (Association.tieBreakTotal / (Float.ofNat m * Float.ofNat m))
      ).isFinite = true := by
  obtain ⟨hfin, hsmall⟩ := charge_small hi hm
  have hsub : Finite (1.0 - s).toModel.unpack := by
    have := finite_sub (normal_one.finite (by decide) (by decide)) (normal_one.small (by decide))
      (finite_iff.2 hs)
    rwa [show (1.0 - s).toModel.unpack = _ from unpack_pack this.1]
  refine finite_iff.1 ?_
  generalize Float.ofNat i * (Association.tieBreakTotal / (Float.ofNat m * Float.ofNat m)) = c at *
  have hadd := finite_add hsub hfin hsmall
  rwa [show (1.0 - s + c).toModel.unpack = _ from unpack_pack hadd.1]

theorem not_sub_neg {a b : Float} (h : a ≤ b) : ¬ b - a < 0.0 := by
  intro hneg
  obtain ⟨ha, hb, hle⟩ := le_iff_place.1 h
  obtain ⟨hnan, -, hlt⟩ := lt_iff_place.1 hneg
  have hfa := fields_unpack a.toBits.toBitVec
  have hfb := fields_unpack b.toBits.toBitVec
  have hlevel : level a.toModel.unpack ≤ level b.toModel.unpack := by
    rw [show level a.toModel.unpack = place a from hfa.level_eq ha,
      show level b.toModel.unpack = place b from hfb.level_eq hb]
    exact hle
  have hsub : 0 ≤ level (b - a).toModel.unpack :=
    level_pack (nonneg_sub hfa.canonical hfb.canonical hlevel)
  rw [show level (b - a).toModel.unpack = place (b - a) from
    (fields_unpack (b - a).toBits.toBitVec).level_eq hnan] at hsub
  exact absurd hlt (not_lt.2 hsub)

end Binary64

instance : RoundedScalar Float where
  not_sub_neg := Binary64.not_sub_neg
  isFinite_zero := by decide
  isFinite_cost := Binary64.isFinite_cost

end TrackFusion
