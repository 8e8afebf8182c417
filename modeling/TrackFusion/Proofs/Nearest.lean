import TrackFusion.Proofs.Shares

/-!
# Rounding goes to the nearest double

Counted in least doubles, every finite double is a whole number. A difference of two of them is
rounded to the place of the double next to it, and the places of rounded numbers follow the order
of the numbers.

* `Binary64.rounded_succ`: rounding to the nearest whole number.
* `Binary64.nearest_mono`: places are in the order of the numbers.
* `Binary64.level_sub`: the place of a difference.
* `Binary64.level_sub_mono`: what is taken from a greater number leaves no less.
* `MonotoneScalar`: scalars of which that holds.
-/

namespace TrackFusion

namespace Binary64

open Float.Model (Format UnpackedFloat totalExponent)
open Float.Model.UnpackedFloat

/-! ### Significands -/

/-- What has been shifted out leaves a trace if it was not zero. -/
theorem trace_shift (m k : ℕ) :
    ((ExtendedMantissa.ofMantissaAndAccuracy m .exact >>> k).roundBit ||
      (ExtendedMantissa.ofMantissaAndAccuracy m .exact >>> k).stickyBit) =
        decide (m % 2 ^ k ≠ 0) := by
  induction k with
  | zero =>
    rw [pow_zero, Nat.mod_one]
    rfl
  | succ k ih =>
    have hstep : ExtendedMantissa.ofMantissaAndAccuracy m .exact >>> (k + 1) =
        (ExtendedMantissa.ofMantissaAndAccuracy m .exact >>> k).shiftRightOne := rfl
    simp only [hstep, ExtendedMantissa.shiftRightOne, ih, mantissa_shift,
      mantissa_ofMantissaAndAccuracy]
    rw [Nat.mod_pow_succ]
    by_cases hlow : m % 2 ^ k = 0
    · rcases Nat.mod_two_eq_zero_or_one (m / 2 ^ k) with h | h <;> simp [hlow, h]
    · simp [hlow]

/-- **Rounding to the nearest whole number**, and to the even one of two. -/
theorem rounded_succ (m k : ℕ) :
    rounded m .exact (k + 1) = m / 2 ^ k / 2 +
      if m / 2 ^ k % 2 = 1 ∧ (m % 2 ^ k ≠ 0 ∨ m / 2 ^ k / 2 % 2 = 1) then 1 else 0 := by
  have htrace := trace_shift m k
  have hstep : ExtendedMantissa.ofMantissaAndAccuracy m .exact >>> (k + 1) =
      (ExtendedMantissa.ofMantissaAndAccuracy m .exact >>> k).shiftRightOne := rfl
  rw [rounded, hstep]
  simp only [ExtendedMantissa.shiftRightOne, mantissa_shift, mantissa_ofMantissaAndAccuracy,
    htrace]
  generalize m / 2 ^ k = q
  rcases Nat.mod_two_eq_zero_or_one q with hq | hq <;>
  rcases Nat.mod_two_eq_zero_or_one (q / 2) with hhalf | hhalf <;>
  by_cases hlow : m % 2 ^ k = 0 <;>
    simp [ExtendedMantissa.roundedMantissa, ExtendedMantissa.accuracy,
      Accuracy.roundToNearestEven, hq, hhalf, hlow]

/-- Rounding keeps the order. -/
theorem rounded_mono {m m' : ℕ} (h : m ≤ m') (k : ℕ) :
    rounded m .exact k ≤ rounded m' .exact k := by
  cases k with
  | zero => exact h
  | succ k =>
    rw [rounded_succ, rounded_succ]
    have hq : m / 2 ^ k ≤ m' / 2 ^ k := Nat.div_le_div_right h
    rcases hq.lt_or_eq with hlt | heq
    · split <;> split <;> omega
    · -- of the same bits, the lesser number leaves the lesser trace
      have htrace : m % 2 ^ k ≤ m' % 2 ^ k := by
        have hm := Nat.div_add_mod m (2 ^ k)
        have hm' := Nat.div_add_mod m' (2 ^ k)
        rw [heq] at hm
        omega
      rw [heq]
      split <;> split <;> omega

/-- Zeros at the end of a significand do not count. -/
theorem rounded_mul_pow (m k i : ℕ) : rounded (m * 2 ^ i) .exact (k + i) = rounded m .exact k := by
  cases k with
  | zero =>
    rw [Nat.zero_add]
    refine le_antisymm (rounded_le le_rfl) ?_
    have h := (rounded_between (m * 2 ^ i) .exact i).1
    rwa [Nat.mul_div_cancel _ (Nat.two_pow_pos i)] at h
  | succ k =>
    have hquot : m * 2 ^ i / 2 ^ (k + i) = m / 2 ^ k := by
      rw [pow_add, Nat.mul_div_mul_right _ _ (Nat.two_pow_pos i)]
    have hrest : m * 2 ^ i % 2 ^ (k + i) = m % 2 ^ k * 2 ^ i := by
      rw [pow_add, Nat.mul_mod_mul_right]
    rw [Nat.add_right_comm, rounded_succ, rounded_succ, hquot, hrest]
    simp

/-! ### Places -/

/-- How many bits of a number are rounded off, if the least double is one. -/
def excess (n : ℕ) : ℕ := n.log2 + 1 - 53

/-- The place of the double next to a number of least doubles. -/
def nearest (n : ℕ) : ℤ := excess n * 2 ^ 52 + rounded n .exact (excess n)

theorem rounded_excess_le (n : ℕ) : rounded n .exact (excess n) ≤ 2 ^ 53 := by
  refine rounded_le ?_
  rw [← pow_add]
  refine (Nat.lt_log2_self (n := n)).le.trans (Nat.pow_le_pow_right (by decide) ?_)
  rw [excess]
  omega

theorem nearest_mono {n n' : ℕ} (h : n ≤ n') : nearest n ≤ nearest n' := by
  have hlog : n.log2 ≤ n'.log2 := by
    rcases Nat.eq_zero_or_pos n with rfl | hpos
    · exact Nat.zero_le _
    · exact (Nat.le_log2 (by omega)).2 ((Nat.log2_self_le hpos.ne').trans h)
  rw [nearest, nearest]
  have hexcess : excess n ≤ excess n' := by
    rw [excess, excess]
    omega
  rcases hexcess.lt_or_eq with hlt | heq
  · -- the greater one has a leading bit in its place
    have hle := rounded_excess_le n
    have hge : 2 ^ 52 ≤ rounded n' .exact (excess n') := by
      refine two_pow_le_rounded .exact ?_
      simp only [excess] at hlt ⊢
      omega
    omega
  · have := rounded_mono h (excess n')
    rw [heq]
    omega

theorem nearest_nonneg (n : ℕ) : 0 ≤ nearest n := by
  rw [nearest]
  positivity

/-- The same for numbers with a sign. -/
def nearestInt (z : ℤ) : ℤ := if 0 ≤ z then nearest z.toNat else -nearest (-z).toNat

theorem nearestInt_mono {z z' : ℤ} (h : z ≤ z') : nearestInt z ≤ nearestInt z' := by
  have hz := nearest_nonneg (-z).toNat
  have hz' := nearest_nonneg z'.toNat
  rw [nearestInt, nearestInt]
  split
  · rw [if_pos (by omega)]
    exact nearest_mono (by omega)
  · split
    · omega
    · exact neg_le_neg (nearest_mono (by omega))

/-- The place of a rounded number. -/
theorem level_roundWithAccuracy (s : Sign) {m : ℕ} {e : ℤ} (a : Accuracy) {k : ℕ}
    (hk : e + k = max (totalExponent m e - 53) (-1074)) :
    level (roundWithAccuracy Format.binary64 s m e a) =
      s.apply ((e + k + 1074) * 2 ^ 52 + rounded m a k) := by
  obtain ⟨hle, heq⟩ := roundWithAccuracy_eq s a hk
  rw [heq]
  split
  · rename_i hzero
    have hmin : e + k = -1074 := by
      by_contra hne
      have hlead := two_pow_le_rounded a (m := m) (k := k) (by rw [totalExponent] at hk; omega)
      omega
    rw [hzero, hmin]
    cases s <;> rfl
  · split
    · rfl
    · rename_i hge
      rw [level]
      congr 1
      omega

theorem level_round (s : Sign) {m : ℕ} (hm : 0 < m) {e : ℤ} (he : -1074 ≤ e) :
    level (UnpackedFloat.round Format.binary64 s m e) =
      s.apply (nearest (m * 2 ^ (e + 1074).toNat)) := by
  obtain ⟨m', e', -, htotal, he', hscale, heq⟩ := round_eq s hm e
  obtain ⟨k, hk⟩ : ∃ k : ℕ, e' + k = max (totalExponent m' e' - 53) (-1074) :=
    ⟨(max (totalExponent m' e' - 53) (-1074) - e').toNat, by omega⟩
  have hunits : m * 2 ^ (e + 1074).toNat = m' * 2 ^ (e' + 1074).toNat := by
    rw [hscale, mul_assoc, ← pow_add]
    congr 2
    omega
  have hexcess : excess (m * 2 ^ (e + 1074).toNat) = k + (e' + 1074).toNat := by
    rw [excess, ← Nat.shiftLeft_eq, log2_shiftLeft hm]
    rw [htotal, totalExponent] at hk
    omega
  rw [heq, level_roundWithAccuracy s .exact hk, nearest, hexcess, hunits, rounded_mul_pow]
  congr 2
  push_cast
  omega

theorem nearestInt_apply (s : Sign) (n : ℕ) : nearestInt (s.apply n) = s.apply (nearest n) := by
  cases s with
  | positive => exact if_pos (Int.natCast_nonneg n)
  | negative =>
    rw [nearestInt, Sign.apply]
    split
    · obtain rfl : n = 0 := by omega
      decide
    · rw [neg_neg, Int.toNat_natCast]
      rfl

theorem nearestInt_zero : nearestInt 0 = 0 := by decide

theorem apply_mul_pow (s : Sign) (n i : ℕ) :
    s.apply (n : ℤ) * 2 ^ i = s.apply ((n * 2 ^ i : ℕ) : ℤ) := by
  cases s <;> simp [Sign.apply]

theorem level_normalize (z : ℤ) {g : ℤ} (hg : -1074 ≤ g) (s : Sign) :
    level (UnpackedFloat.normalize Format.binary64 z g s) =
      nearestInt (z * 2 ^ (g + 1074).toNat) := by
  have hround (s' : Sign) {n : ℕ} (hn : 0 < n) (hz : z = s'.apply n) :
      level (UnpackedFloat.round Format.binary64 s' n g) =
        nearestInt (z * 2 ^ (g + 1074).toNat) := by
    rw [level_round s' hn hg, hz, apply_mul_pow, nearestInt_apply]
  rw [UnpackedFloat.normalize]
  split
  · rename_i h
    rw [compare_lt_iff_lt] at h
    refine hround .negative (by omega) ?_
    rw [Sign.apply]
    omega
  · rename_i h
    rw [compare_eq_iff_eq.1 h, zero_mul, nearestInt_zero]
    rfl
  · rename_i h
    rw [compare_gt_iff_gt] at h
    refine hround .positive (by omega) ?_
    rw [Sign.apply]
    omega

/-- A finite number, counted in least doubles. -/
def units : UnpackedFloat → ℤ
  | .finite s m e _ => s.apply ((m * 2 ^ (e + 1074).toNat : ℕ) : ℤ)
  | _ => 0

/-- A double is next to itself. -/
theorem nearestInt_units {u : UnpackedFloat} (h : Finite u) : nearestInt (units u) = level u := by
  obtain ⟨hc, hfin⟩ := h
  cases u with
  | notANumber => cases hfin
  | infinity s => cases hfin
  | zero s => exact nearestInt_zero
  | finite s m e hm =>
    obtain ⟨hlt, hmin, -, hlead⟩ := hc
    have hlog : m.log2 ≤ 52 := by
      have := (Nat.log2_lt hm.ne').2 hlt
      omega
    have hexcess : excess (m * 2 ^ (e + 1074).toNat) = 0 + (e + 1074).toNat := by
      rw [excess, ← Nat.shiftLeft_eq, log2_shiftLeft hm]
      rcases hlead with hlead | rfl
      · have := (Nat.le_log2 hm.ne').2 hlead
        omega
      · omega
    rw [units, nearestInt_apply, nearest, hexcess, rounded_mul_pow, level]
    congr 1
    show ((0 + (e + 1074).toNat : ℕ) : ℤ) * 2 ^ 52 + (m : ℤ) = _
    omega

/-- Doubles are in the order of the numbers that they stand for. -/
theorem units_mono {a b : UnpackedFloat} (ha : Finite a) (hb : Finite b)
    (h : level a ≤ level b) : units a ≤ units b := by
  obtain ⟨hca, hfa⟩ := ha
  obtain ⟨hcb, hfb⟩ := hb
  cases a with
  | notANumber => cases hfa
  | infinity s => cases hfa
  | zero s =>
    cases b with
    | finite s' m' e' h' =>
      have hpos := magnitude_pos hcb
      cases s' with
      | positive => exact Int.natCast_nonneg _
      | negative =>
        simp only [level, Sign.apply] at h
        omega
    | _ => exact le_rfl
  | finite s m e h₀ =>
    cases b with
    | notANumber => cases hfb
    | infinity s' => cases hfb
    | zero s' =>
      have hpos := magnitude_pos hca
      cases s with
      | negative => exact neg_nonpos.2 (Int.natCast_nonneg _)
      | positive =>
        simp only [level, Sign.apply] at h
        omega
    | finite s' m' e' h' =>
      have hle := apply_le hca hcb hca.2.1 hcb.2.1 h
      rwa [sub_neg_eq_add, sub_neg_eq_add] at hle

/-- A number in units of a lesser last place. -/
theorem apply_shift (s : Sign) (m : ℕ) {e g : ℤ} (hg : -1074 ≤ g) (he : g ≤ e) :
    s.apply ((m * 2 ^ (e - g).toNat : ℕ) : ℤ) * 2 ^ (g + 1074).toNat =
      s.apply ((m * 2 ^ (e + 1074).toNat : ℕ) : ℤ) := by
  have hsplit : (e + 1074).toNat = (e - g).toNat + (g + 1074).toNat := by omega
  rw [hsplit, pow_add, ← mul_assoc, apply_mul_pow]

/-- **Differences are rounded to the nearest double.** -/
theorem level_sub {a b : UnpackedFloat} (ha : Finite a) (hb : Finite b) :
    level (UnpackedFloat.sub Format.binary64 a b) = nearestInt (units a - units b) := by
  have hself := nearestInt_units ha
  obtain ⟨hca, hfa⟩ := ha
  obtain ⟨hcb, hfb⟩ := hb
  cases a with
  | notANumber => cases hfa
  | infinity s => cases hfa
  | zero s =>
    cases b with
    | notANumber => cases hfb
    | infinity s' => cases hfb
    | zero s' => cases s <;> cases s' <;> rfl
    | finite s' m' e' h' =>
      have hopposite : (0 : ℤ) - units (.finite s' m' e' h') = units (.finite (-s') m' e' h') := by
        cases s' with
        | positive => exact zero_sub _
        | negative => exact (zero_sub _).trans (neg_neg _)
      show level (.finite (-s') m' e' h') = nearestInt (0 - units (.finite s' m' e' h'))
      rw [hopposite]
      exact (nearestInt_units (u := .finite (-s') m' e' h') ⟨hcb, rfl⟩).symm
  | finite s m e h =>
    cases b with
    | notANumber => cases hfb
    | infinity s' => cases hfb
    | zero s' =>
      show level (.finite s m e h) = nearestInt (units (.finite s m e h) - 0)
      rw [sub_zero, hself]
    | finite s' m' e' h' =>
      obtain ⟨-, hmin, -, -⟩ := hca
      obtain ⟨-, hmin', -, -⟩ := hcb
      simp only [UnpackedFloat.sub, decreaseExponent, Nat.shiftLeft_eq]
      rw [level_normalize _ (by omega), sub_mul, apply_shift s m (by omega) (min_le_left e e'),
        apply_shift s' m' (by omega) (min_le_right e e')]
      rfl

/-! ### Packed -/

/-- The place of a number after packing: what is beyond the greatest double becomes an infinity. -/
def clamp (z : ℤ) : ℤ := max (-(2047 * 2 ^ 52)) (min z (2047 * 2 ^ 52))

theorem clamp_mono {z z' : ℤ} (h : z ≤ z') : clamp z ≤ clamp z' := by
  rw [clamp, clamp]
  omega

theorem clamp_level {u : UnpackedFloat} (h : Canonical u) : clamp (level u) = level u := by
  cases u with
  | notANumber => rfl
  | infinity s => cases s <;> decide
  | zero s => rfl
  | finite s m e hm =>
    have := level_finite h
    rw [clamp]
    omega

/-- The forms that numbers are rounded to. Their exponents may be too great for a double. -/
def Roundable : UnpackedFloat → Prop
  | .finite _ m e _ => m < 2 ^ 53 ∧ -1074 ≤ e ∧ (2 ^ 52 ≤ m ∨ e = -1074)
  | _ => True

theorem level_pack_eq {u : UnpackedFloat} (h : Roundable u) :
    level (unpack Format.binary64 (pack Format.binary64 u)) = clamp (level u) := by
  by_cases hc : Canonical u
  · rw [unpack_pack hc, clamp_level hc]
  · cases u with
    | notANumber => exact absurd trivial hc
    | infinity s => exact absurd trivial hc
    | zero s => exact absurd trivial hc
    | finite s m e hm =>
      obtain ⟨hlt, hmin, hlead⟩ := h
      have hbig : 971 < e := not_le.1 fun hmax => hc ⟨hlt, hmin, hmax, hlead⟩
      have hbits : 2 ^ Format.binary64.exponentBits ≤ (e + Format.binary64.exponentBias +
          Format.binary64.mantissaBitsWithoutImplicit).toNat + 1 := by
        show 2 ^ 11 ≤ (e + ((1023 : ℕ) : ℤ) + ((52 : ℕ) : ℤ)).toNat + 1
        omega
      simp only [pack, if_pos hbits]
      have hinf : unpack Format.binary64 (packedInfinity Format.binary64 s) = .infinity s := by
        cases s <;> rfl
      rw [hinf, level, level, clamp]
      cases s <;> simp only [Sign.apply] <;> omega

theorem roundable_roundWithAccuracy (s : Sign) {m : ℕ} {e : ℤ} (a : Accuracy) {k : ℕ}
    (hk : e + k = max (totalExponent m e - 53) (-1074)) :
    Roundable (roundWithAccuracy Format.binary64 s m e a) := by
  obtain ⟨hle, heq⟩ := roundWithAccuracy_eq s a hk
  rw [heq]
  split
  · trivial
  · split
    · rename_i hlt
      refine ⟨hlt, by omega, ?_⟩
      rcases Int.lt_or_le (totalExponent m e - 53) (-1074) with hmin | hmin
      · right
        omega
      · left
        refine two_pow_le_rounded a ?_
        rw [totalExponent] at *
        omega
    · exact ⟨by decide, by omega, .inl (by decide)⟩

theorem roundable_round (s : Sign) {m : ℕ} (hm : 0 < m) (e : ℤ) :
    Roundable (UnpackedFloat.round Format.binary64 s m e) := by
  obtain ⟨m', e', -, htotal, he', -, heq⟩ := round_eq s hm e
  obtain ⟨k, hk⟩ : ∃ k : ℕ, e' + k = max (totalExponent m' e' - 53) (-1074) :=
    ⟨(max (totalExponent m' e' - 53) (-1074) - e').toNat, by omega⟩
  rw [heq]
  exact roundable_roundWithAccuracy s .exact hk

theorem roundable_normalize (z g : ℤ) (s : Sign) :
    Roundable (UnpackedFloat.normalize Format.binary64 z g s) := by
  rw [UnpackedFloat.normalize]
  split
  · rename_i h
    rw [compare_lt_iff_lt] at h
    exact roundable_round _ (by omega) _
  · trivial
  · rename_i h
    rw [compare_gt_iff_gt] at h
    exact roundable_round _ (by omega) _

theorem Canonical.roundable {u : UnpackedFloat} (h : Canonical u) : Roundable u := by
  cases u with
  | finite s m e hm => exact ⟨h.1, h.2.1, h.2.2.2⟩
  | _ => trivial

theorem roundable_sub {a b : UnpackedFloat} (ha : Finite a) (hb : Finite b) :
    Roundable (UnpackedFloat.sub Format.binary64 a b) := by
  obtain ⟨hca, hfa⟩ := ha
  obtain ⟨hcb, hfb⟩ := hb
  cases a with
  | notANumber => cases hfa
  | infinity s => cases hfa
  | zero s =>
    cases b with
    | notANumber => cases hfb
    | infinity s' => cases hfb
    | zero s' => cases s <;> cases s' <;> trivial
    | finite s' m' e' h' => exact hcb.roundable
  | finite s m e h =>
    cases b with
    | notANumber => cases hfb
    | infinity s' => cases hfb
    | zero s' => exact hca.roundable
    | finite s' m' e' h' => exact roundable_normalize _ _ _

theorem level_pack_sub {a b : UnpackedFloat} (ha : Finite a) (hb : Finite b) :
    level (unpack Format.binary64 (pack Format.binary64 (UnpackedFloat.sub Format.binary64 a b))) =
      clamp (nearestInt (units a - units b)) := by
  rw [← level_sub ha hb]
  exact level_pack_eq (roundable_sub ha hb)

/-! ### Differences from one number -/

theorem finite_or_infinity {u : UnpackedFloat} (h : Canonical u) (hnan : u.isNaN = false) :
    Finite u ∨ ∃ s, u = .infinity s := by
  cases u with
  | notANumber => cases hnan
  | infinity s => exact .inr ⟨s, rfl⟩
  | zero s => exact .inl ⟨trivial, rfl⟩
  | finite s m e hm => exact .inl ⟨h, rfl⟩

/-- All places are between those of the infinities. -/
theorem level_bounds {u : UnpackedFloat} (h : Canonical u) :
    level (.infinity .negative) ≤ level u ∧ level u ≤ level (.infinity .positive) := by
  cases u with
  | notANumber => decide
  | infinity s => cases s <;> decide
  | zero s =>
    show level (.infinity .negative) ≤ 0 ∧ 0 ≤ level (.infinity .positive)
    decide
  | finite s m e hm => exact ⟨(level_finite h).1.le, (level_finite h).2.le⟩

theorem Finite.level_lt {u : UnpackedFloat} (h : Finite u) :
    level (.infinity .negative) < level u ∧ level u < level (.infinity .positive) := by
  obtain ⟨hc, hfin⟩ := h
  cases u with
  | notANumber => cases hfin
  | infinity s => cases hfin
  | zero s =>
    show level (.infinity .negative) < 0 ∧ 0 < level (.infinity .positive)
    decide
  | finite s m e hm => exact level_finite hc

theorem infinity_sub (s : Sign) {c : UnpackedFloat} (hc : Finite c) :
    UnpackedFloat.sub Format.binary64 (.infinity s) c = .infinity s := by
  obtain ⟨-, hfin⟩ := hc
  cases c with
  | notANumber => cases hfin
  | infinity s' => cases hfin
  | zero s' => rfl
  | finite s' m' e' h' => rfl

theorem sub_infinity {a : UnpackedFloat} {s : Sign}
    (h : (UnpackedFloat.sub Format.binary64 a (.infinity s)).isNaN = false) :
    UnpackedFloat.sub Format.binary64 a (.infinity s) = .infinity (-s) ∧ a ≠ .infinity s := by
  cases a with
  | notANumber => cases h
  | infinity s' =>
    cases s <;> cases s'
    · cases h
    · exact ⟨rfl, nofun⟩
    · exact ⟨rfl, nofun⟩
    · cases h
  | zero s' => exact ⟨rfl, nofun⟩
  | finite s' m' e' h' => exact ⟨rfl, nofun⟩

section order

variable {a b c : UnpackedFloat}

/-- **What is taken from a greater number leaves no less**, after rounding too. -/
theorem level_sub_mono (ha : Canonical a) (hb : Canonical b) (hc : Canonical c)
    (hle : level a ≤ level b) (hac : (UnpackedFloat.sub Format.binary64 a c).isNaN = false)
    (hbc : (UnpackedFloat.sub Format.binary64 b c).isNaN = false) :
    level (unpack Format.binary64 (pack Format.binary64 (UnpackedFloat.sub Format.binary64 a c))) ≤
      level (unpack Format.binary64
        (pack Format.binary64 (UnpackedFloat.sub Format.binary64 b c))) := by
  have hnan : a.isNaN = false ∧ b.isNaN = false ∧ c.isNaN = false := by
    refine ⟨?_, ?_, ?_⟩
    · cases a <;> first | rfl | exact hac
    · cases b <;> first | rfl | exact hbc
    · cases c <;> first | rfl | (cases a <;> exact hac)
  obtain ⟨hna, hnb, hnc⟩ := hnan
  rcases finite_or_infinity hc hnc with hc | ⟨s, rfl⟩
  · rcases finite_or_infinity ha hna with ha | ⟨s, rfl⟩
    · rcases finite_or_infinity hb hnb with hb | ⟨s, rfl⟩
      · rw [level_pack_sub ha hc, level_pack_sub hb hc]
        exact clamp_mono (nearestInt_mono (Int.sub_le_sub_right (units_mono ha hb hle) _))
      · cases s with
        | negative => exact absurd hle (not_le.2 ha.level_lt.1)
        | positive =>
          rw [infinity_sub .positive hc, unpack_pack (u := .infinity .positive) trivial]
          exact (level_bounds (fields_unpack _).canonical).2
    · cases s with
      | negative =>
        rw [infinity_sub .negative hc, unpack_pack (u := .infinity .negative) trivial]
        exact (level_bounds (fields_unpack _).canonical).1
      | positive =>
        -- only an infinity is as great as an infinity
        rcases finite_or_infinity hb hnb with hb | ⟨s, rfl⟩
        · exact absurd hle (not_le.2 hb.level_lt.2)
        · cases s with
          | negative => exact absurd hle (by decide)
          | positive => exact le_rfl
  · rw [(sub_infinity hac).1, (sub_infinity hbc).1]

/-- If only the greater number has no difference, the other difference is as small as can be. -/
theorem sub_of_isNaN (hle : level a ≤ level b) (ha : Canonical a) (hb : b.isNaN = false)
    (hac : (UnpackedFloat.sub Format.binary64 a c).isNaN = false)
    (hbc : (UnpackedFloat.sub Format.binary64 b c).isNaN = true) :
    UnpackedFloat.sub Format.binary64 a c = .infinity .negative := by
  have hboth : ∃ s, b = .infinity s ∧ c = .infinity s := by
    cases c with
    | notANumber => cases a <;> cases hac
    | infinity s =>
      refine ⟨s, ?_, rfl⟩
      cases b with
      | notANumber => cases hb
      | infinity s' => cases s <;> cases s' <;> first | rfl | cases hbc
      | zero s' => cases hbc
      | finite s' m' e' h' => cases hbc
    | zero s =>
      exact absurd hbc (by rw [isNaN_sub_unpacked hb rfl]; decide)
    | finite s m e h =>
      exact absurd hbc (by rw [isNaN_sub_unpacked hb rfl]; decide)
  obtain ⟨s, rfl, rfl⟩ := hboth
  obtain ⟨heq, hne⟩ := sub_infinity hac
  cases s with
  | positive => exact heq
  | negative =>
    have hna : a.isNaN = false := by
      cases a <;> first | rfl | exact hac
    rcases finite_or_infinity ha hna with ha | ⟨s, rfl⟩
    · exact absurd hle (not_le.2 ha.level_lt.1)
    · cases s with
      | negative => exact absurd rfl hne
      | positive => exact absurd hle (by decide)

end order

theorem isNaN_sub_eq (x y : Float) : (x - y).isNaN =
    (UnpackedFloat.sub Format.binary64 x.toModel.unpack y.toModel.unpack).isNaN :=
  isNaN_unpack_pack _

theorem lt_sub_of_le {a b c x : Float} (hle : a ≤ b) (hlt : x < a - c) : x < b - c := by
  obtain ⟨-, hb, hle⟩ := le_iff_level.1 hle
  obtain ⟨hx, hac, hlt⟩ := lt_iff_level.1 hlt
  rw [isNaN_sub_eq] at hac
  have hdiff (z : Float) : (z - c).toModel.unpack = unpack Format.binary64 (pack Format.binary64
      (UnpackedFloat.sub Format.binary64 z.toModel.unpack c.toModel.unpack)) := rfl
  rw [hdiff] at hlt
  cases hbc : (UnpackedFloat.sub Format.binary64 b.toModel.unpack c.toModel.unpack).isNaN with
  | true =>
    rw [sub_of_isNaN hle (unpack_toModel a) hb hac hbc,
      unpack_pack (u := .infinity .negative) trivial] at hlt
    exact absurd hlt (not_lt.2 (level_bounds (unpack_toModel x)).1)
  | false =>
    refine lt_iff_level.2 ⟨hx, (isNaN_sub_eq b c).trans hbc, ?_⟩
    rw [hdiff]
    exact hlt.trans_le (level_sub_mono (unpack_toModel a) (unpack_toModel b) (unpack_toModel c)
      hle hac hbc)

end Binary64

/-- Scalars whose differences follow the order, rounded or not. -/
class MonotoneScalar (α : Type) [Scalar α] : Prop where
  lt_sub_of_le {a b c x : α} : a ≤ b → x < a - c → x < b - c

instance {α : Type} [ExactScalar α] : MonotoneScalar α where
  lt_sub_of_le hle hlt := hlt.trans_le (sub_le_sub_right hle _)

instance : MonotoneScalar Float where
  lt_sub_of_le := Binary64.lt_sub_of_le

end TrackFusion
