import TrackFusion.Proofs.Magnitudes

/-!
# Shares of a bound

What is left of a bound, as a share of it, is a number between zero and one, also after rounding: a
number that is at most some double is not rounded beyond it.

* `Binary64.rounded_within`: rounding does not pass a double.
* `Binary64.sub_within`, `Binary64.div_within`: what is left of a number, and shares of it.
* `Binary64.not_hypot_neg`: lengths are not negative.
* `Binary64.share_le_one`, `Binary64.share_self_le`: shares of a bound.
-/

namespace TrackFusion

namespace Binary64

open Float.Model (Format UnpackedFloat totalExponent)
open Float.Model.UnpackedFloat

/-! ### Rounding does not pass a double -/

/-- A significand is not rounded beyond a whole number. -/
theorem rounded_le {m n k : ℕ} (h : m ≤ n * 2 ^ k) : rounded m .exact k ≤ n := by
  cases k with
  | zero =>
    rw [pow_zero, mul_one] at h
    exact h
  | succ k =>
    refine (rounded_shift_le (.ofMantissaAndAccuracy m .exact) k).trans ?_
    rw [mantissa_ofMantissaAndAccuracy]
    have hdiv : m / 2 ^ k ≤ 2 * n := Nat.div_le_of_le_mul (by rw [pow_succ] at h; linarith)
    omega

section within

variable {s : Sign} {M : ℕ} {E : ℤ} {h : 0 < M}

/-- **Rounding does not pass a double**: in units of the last place it is rounded to, a number below
one stays below it. -/
theorem rounded_within (hc : Canonical (.finite s M E h)) {m : ℕ} {e : ℤ} {a : Accuracy} {k : ℕ}
    (hk : e + k = max (totalExponent m e - 53) (-1074)) (hE : e + k ≤ E)
    (hle : rounded m a k ≤ M * 2 ^ (E - (e + k)).toNat) :
    Finite (roundWithAccuracy Format.binary64 .positive m e a) ∧
      level (roundWithAccuracy Format.binary64 .positive m e a) ≤ (E + 1074) * 2 ^ 52 + M := by
  obtain ⟨hM, hmin, hmax, hlead⟩ := hc
  have hsame : e + k = E → rounded m a k ≤ M := by
    intro heq
    rwa [heq, sub_self, Int.toNat_zero, pow_zero, mul_one] at hle
  refine ⟨finite_roundWithAccuracy .positive a hk ?_, ?_⟩
  · rcases hE.lt_or_eq with hlt | heq
    · exact .inl (by omega)
    · have := hsame heq
      omega
  · obtain ⟨hcarry, heq⟩ := roundWithAccuracy_eq .positive a hk
    rw [heq]
    have hplace : (e + k + 1074) * 2 ^ 52 + (rounded m a k : ℤ) ≤ (E + 1074) * 2 ^ 52 + M := by
      rcases hE.lt_or_eq with hlt | heq
      · omega
      · have := hsame heq
        omega
    split
    · simp only [level]
      omega
    · split
      · exact hplace
      · simp only [level, Sign.apply]
        omega

theorem round_within (hc : Canonical (.finite s M E h)) {m : ℕ} {e : ℤ} (hm : 0 < m) (he : e ≤ E)
    (hle : m ≤ M * 2 ^ (E - e).toNat) :
    Finite (UnpackedFloat.round Format.binary64 .positive m e) ∧
      level (UnpackedFloat.round Format.binary64 .positive m e) ≤ (E + 1074) * 2 ^ 52 + M := by
  obtain ⟨m', e', -, htotal, he', hscale, heq⟩ := round_eq .positive hm e
  have hlog : m.log2 < 53 + (E - e).toNat := by
    refine (Nat.log2_lt hm.ne').2 (hle.trans_lt ?_)
    rw [pow_add]
    exact Nat.mul_lt_mul_of_pos_right hc.1 (by positivity)
  have htop : max (totalExponent m e - 53) (-1074) ≤ E := by
    have := hc.2.1
    rw [totalExponent]
    omega
  obtain ⟨k, hk⟩ : ∃ k : ℕ, e' + k = max (totalExponent m' e' - 53) (-1074) :=
    ⟨(max (totalExponent m' e' - 53) (-1074) - e').toNat, by omega⟩
  rw [heq]
  refine rounded_within hc hk (by omega) (rounded_le ?_)
  calc m' = m * 2 ^ (e - e').toNat := hscale
    _ ≤ M * 2 ^ (E - e).toNat * 2 ^ (e - e').toNat := Nat.mul_le_mul_right _ hle
    _ = M * 2 ^ (E - (e' + k)).toNat * 2 ^ k := by
      rw [mul_assoc, mul_assoc, ← pow_add, ← pow_add]
      congr 2
      omega

end within

/-! ### What is left of a number -/

theorem exists_of_level_pos {a : UnpackedFloat} (ha : Finite a) (hpos : 0 < level a) :
    ∃ m e h, a = .finite .positive m e h := by
  cases a with
  | notANumber => exact absurd hpos (lt_irrefl 0)
  | infinity s => cases ha.2
  | zero s => exact absurd hpos (lt_irrefl 0)
  | finite s m e h =>
    have := magnitude_pos ha.1
    cases s with
    | negative =>
      simp only [level, Sign.apply] at hpos
      omega
    | positive => exact ⟨m, e, h, rfl⟩

/-- **What is left of a number** is at most the number. -/
theorem sub_within {a b : UnpackedFloat} (ha : Finite a) (hb : Canonical b)
    (hnan : b.isNaN = false) (hb₀ : 0 ≤ level b) (hle : level b ≤ level a) (hpos : 0 < level a) :
    Finite (UnpackedFloat.sub Format.binary64 a b) ∧
      level (UnpackedFloat.sub Format.binary64 a b) ≤ level a := by
  obtain ⟨M, E, hM, rfl⟩ := exists_of_level_pos ha hpos
  cases b with
  | notANumber => cases hnan
  | infinity s =>
    have := (level_finite ha.1).2
    cases s with
    | negative => exact absurd hb₀ (by decide)
    | positive => exact absurd (hle.trans_lt this) (lt_irrefl _)
  | zero s => exact ⟨ha, le_rfl⟩
  | finite s m e h =>
    cases s with
    | negative => exact absurd hb₀ (not_le.2 (neg_neg_of_pos (magnitude_pos hb)))
    | positive =>
      simp only [UnpackedFloat.sub, decreaseExponent, Nat.shiftLeft_eq, Sign.apply]
      rw [UnpackedFloat.normalize]
      split
      · rename_i hneg
        have := magnitude_le (g := min E e) hb ha.1 (min_le_right _ _) hle
        rw [compare_lt_iff_lt] at hneg
        omega
      · exact ⟨⟨trivial, rfl⟩, hpos.le⟩
      · rename_i hgt
        rw [compare_gt_iff_gt] at hgt
        exact round_within ha.1 (by omega) (min_le_left _ _) (by omega)

/-! ### Shares -/

theorem canonical_one : Canonical (.finite .positive (2 ^ 52) (-52) (by decide)) :=
  ⟨by decide, by decide, by decide, .inl le_rfl⟩

theorem log2_le_log2_div (m : ℕ) {n : ℕ} (hm : 0 < m) (hn : 0 < n) :
    m.log2 ≤ (m / n).log2 + n.log2 + 1 := by
  have hlt : m < 2 ^ ((m / n).log2 + n.log2 + 2) :=
    calc m < n * (m / n + 1) := Nat.lt_mul_div_succ m hn
      _ ≤ 2 ^ (n.log2 + 1) * 2 ^ ((m / n).log2 + 1) :=
        Nat.mul_le_mul Nat.lt_log2_self.le Nat.lt_log2_self
      _ = 2 ^ ((m / n).log2 + n.log2 + 2) := by
        rw [← pow_add]
        congr 1
        omega
  have := (Nat.log2_lt hm.ne').2 hlt
  omega

section quotient

variable {T : ℤ} {k : ℕ}

/-- A fraction less than one has its leading bit behind the point, so it stays at most one. -/
theorem fraction_within {q : ℕ} (a : Accuracy)
    (hk : T + k = max (totalExponent q T - 53) (-1074)) (hT : T ≤ 0)
    (hq : q < 2 ^ (-T).toNat) :
    Finite (roundWithAccuracy Format.binary64 .positive q T a) ∧
      level (roundWithAccuracy Format.binary64 .positive q T a) ≤ 1023 * 2 ^ 52 := by
  have hlog : q.log2 ≤ (-T).toNat - 1 := by
    rcases eq_or_ne q 0 with rfl | hne
    · exact Nat.zero_le _
    · have := (Nat.log2_lt hne).2 hq
      omega
  have htop : T + k ≤ -53 := by
    rw [totalExponent] at hk
    omega
  refine rounded_within canonical_one hk (by omega)
    ((roundWithAccuracy_eq .positive _ hk).1.trans ?_)
  calc 2 ^ 53 = 2 ^ 52 * 2 ^ 1 := by norm_num
    _ ≤ 2 ^ 52 * 2 ^ (-52 - (T + k)).toNat :=
      Nat.mul_le_mul_left _ (Nat.pow_le_pow_right (by decide) (by omega))

/-- One stays one. -/
theorem whole_within (hk : T + k = max (totalExponent (2 ^ (-T).toNat) T - 53) (-1074))
    (hT : T ≤ 0) :
    Finite (roundWithAccuracy Format.binary64 .positive (2 ^ (-T).toNat) T .exact) ∧
      level (roundWithAccuracy Format.binary64 .positive (2 ^ (-T).toNat) T .exact) ≤
        1023 * 2 ^ 52 := by
  have htop : T + k = -52 := by
    rw [totalExponent, Nat.log2_two_pow] at hk
    omega
  refine rounded_within canonical_one hk htop.le (rounded_le ?_)
  rw [htop, sub_self, Int.toNat_zero, pow_zero, mul_one, ← pow_add]
  exact Nat.pow_le_pow_right (by decide) (by omega)

variable {m m' : ℕ} {e e' : ℤ} {hm : 0 < m} {hm' : 0 < m'}

/-- A quotient in units of `2 ^ T`, with both numbers in units of the lesser last place. -/
theorem shiftLeft_mul (hT : T ≤ e - e') (hT₀ : T ≤ 0) :
    m <<< (e - e' - T).toNat * 2 ^ (e' - min e e').toNat =
      m * 2 ^ (e - min e e').toNat * 2 ^ (-T).toNat := by
  rw [Nat.shiftLeft_eq, mul_assoc, mul_assoc, ← pow_add, ← pow_add]
  congr 2
  omega

theorem quotient_within (hc : Canonical (.finite .positive m e hm))
    (hc' : Canonical (.finite .positive m' e' hm'))
    (hle : (e + 1074) * 2 ^ 52 + (m : ℤ) ≤ (e' + 1074) * 2 ^ 52 + (m' : ℤ)) :
    Finite (UnpackedFloat.div Format.binary64 (.finite .positive m e hm)
        (.finite .positive m' e' hm')) ∧
      level (UnpackedFloat.div Format.binary64 (.finite .positive m e hm)
        (.finite .positive m' e' hm')) ≤ 1023 * 2 ^ 52 := by
  have htotal (n : ℕ) (f : ℤ) : totalExponent n f = n.log2 + 1 + f := rfl
  simp only [UnpackedFloat.div, divCore, targetExponent_eq, htotal]
  obtain ⟨T, hT⟩ : ∃ T, T = min (e - e')
      (max ((m.log2 + 1 + e : ℤ) - (m'.log2 + 1 + e') - 53) (-1074)) := ⟨_, rfl⟩
  rw [← hT]
  have hmag := magnitude_le (g := min e e') hc hc' (min_le_left _ _) hle
  have hlogs : m.log2 + (e - min e e').toNat ≤ m'.log2 + (e' - min e e').toNat := by
    rw [← log2_shiftLeft hm, ← log2_shiftLeft hm', Nat.le_log2 (Nat.shiftLeft_pos_iff.2 hm').ne',
      Nat.shiftLeft_eq m']
    refine le_trans ?_ hmag
    rw [← Nat.shiftLeft_eq]
    exact Nat.log2_self_le (Nat.shiftLeft_pos_iff.2 hm).ne'
  have hshift : m <<< (e - e' - T).toNat * 2 ^ (e' - min e e').toNat =
      m * 2 ^ (e - min e e').toNat * 2 ^ (-T).toNat := shiftLeft_mul (by omega) (by omega)
  -- there are enough digits of the quotient to round it
  have hbits := log2_le_log2_div (m <<< (e - e' - T).toNat) (Nat.shiftLeft_pos_iff.2 hm) hm'
  rw [log2_shiftLeft hm] at hbits
  obtain ⟨k, hk⟩ : ∃ k : ℕ, T + k =
      max (totalExponent (m <<< (e - e' - T).toNat / m') T - 53) (-1074) := by
    refine ⟨(max (totalExponent (m <<< (e - e' - T).toNat / m') T - 53) (-1074) - T).toNat, ?_⟩
    rw [htotal]
    omega
  generalize m <<< (e - e' - T).toNat = n at *
  rcases hmag.lt_or_eq with hlt | heq
  · have hn : n < 2 ^ (-T).toNat * m' := by
      refine Nat.lt_of_mul_lt_mul_right (a := 2 ^ (e' - min e e').toNat) ?_
      calc n * 2 ^ (e' - min e e').toNat
          = m * 2 ^ (e - min e e').toNat * 2 ^ (-T).toNat := hshift
        _ < m' * 2 ^ (e' - min e e').toNat * 2 ^ (-T).toNat :=
          Nat.mul_lt_mul_of_pos_right hlt (by positivity)
        _ = 2 ^ (-T).toNat * m' * 2 ^ (e' - min e e').toNat := by ring
    exact fraction_within _ hk (by omega) ((Nat.div_lt_iff_lt_mul hm').2 hn)
  -- a quotient of equals is one exactly
  · have hn : n = 2 ^ (-T).toNat * m' := by
      refine Nat.eq_of_mul_eq_mul_right (Nat.two_pow_pos (e' - min e e').toNat) ?_
      rw [hshift, heq]
      ring
    have hexact : accuracyOfFraction (n % m') m' = .exact := by
      rw [hn, Nat.mul_mod_left]
      rfl
    rw [hexact]
    rw [hn, Nat.mul_div_cancel _ hm'] at hk ⊢
    exact whole_within hk (by omega)

end quotient

/-- **A share of a number** is at most one. -/
theorem div_within {a b : UnpackedFloat} (ha : Finite a) (hb : Finite b) (ha₀ : 0 ≤ level a)
    (hle : level a ≤ level b) (hpos : 0 < level b) :
    Finite (UnpackedFloat.div Format.binary64 a b) ∧
      level (UnpackedFloat.div Format.binary64 a b) ≤ 1023 * 2 ^ 52 := by
  obtain ⟨m', e', hm', rfl⟩ := exists_of_level_pos hb hpos
  rcases ha₀.eq_or_lt with hzero | ha₀
  · cases a with
    | notANumber => cases ha.2
    | infinity s => cases ha.2
    | zero s =>
      have hzero : level (.zero (s / .positive)) ≤ 1023 * 2 ^ 52 := by
        rw [level]
        decide
      exact ⟨⟨trivial, rfl⟩, hzero⟩
    | finite s m e h =>
      have := magnitude_pos ha.1
      cases s <;> simp only [level, Sign.apply] at hzero <;> omega
  · obtain ⟨m, e, hm, rfl⟩ := exists_of_level_pos ha ha₀
    exact quotient_within ha.1 hb.1 hle

/-! ### Doubles -/

theorem level_toModel {x : Float} (hx : x.isNaN = false) : level x.toModel.unpack = place x :=
  (fields_unpack x.toBits.toBitVec).level_eq hx

theorem le_iff_level {x y : Float} : x ≤ y ↔
    x.isNaN = false ∧ y.isNaN = false ∧ level x.toModel.unpack ≤ level y.toModel.unpack := by
  rw [le_iff_place]
  refine and_congr_right fun hx => and_congr_right fun hy => ?_
  rw [level_toModel hx, level_toModel hy]

theorem lt_iff_level {x y : Float} : x < y ↔
    x.isNaN = false ∧ y.isNaN = false ∧ level x.toModel.unpack < level y.toModel.unpack := by
  rw [lt_iff_place]
  refine and_congr_right fun hx => and_congr_right fun hy => ?_
  rw [level_toModel hx, level_toModel hy]

theorem Finite.isNaN {u : UnpackedFloat} (h : Finite u) : u.isNaN = false := by
  cases u with
  | notANumber => cases h.2
  | _ => rfl

theorem not_abs_neg (x : Float) : ¬ x.abs < 0.0 := by
  rw [lt_iff_level]
  rintro ⟨-, -, hlt⟩
  refine absurd hlt (not_lt.2 (level_pack (u := x.toModel.unpack.abs) ?_))
  cases x.toModel.unpack <;> trivial

/-- **Lengths are not negative.** -/
theorem not_hypot_neg (x y : Float) : ¬ hypot x y < 0.0 := by
  have hlonger : ¬ (if x.abs < y.abs then y.abs else x.abs) < 0.0 := by
    split
    · exact not_abs_neg y
    · exact not_abs_neg x
  dsimp only [hypot]
  generalize (if x.abs < y.abs then y.abs else x.abs) = a at hlonger ⊢
  generalize (if x.abs < y.abs then x.abs else y.abs) = b
  split
  · decide
  · split
    · exact hlonger
    · exact not_abs_neg _

section share

variable {d m : Float}

/-- What is left of a bound, as a share of it. -/
theorem share_within (hd₀ : ¬ d < 0.0) (hd : d ≤ m) (hm : m.isFinite = true) (hpos : 0.0 < m) :
    Finite ((m - d) / m).toModel.unpack ∧
      level ((m - d) / m).toModel.unpack ≤ 1023 * 2 ^ 52 := by
  obtain ⟨hdn, hmn, hle⟩ := le_iff_level.1 hd
  obtain ⟨-, -, hpos⟩ := lt_iff_level.1 hpos
  have hd₀ : 0 ≤ level d.toModel.unpack :=
    not_lt.1 fun h => hd₀ (lt_iff_level.2 ⟨hdn, by decide, h⟩)
  have hmf := finite_iff.2 hm
  obtain ⟨hleft, hmost⟩ := sub_within hmf (unpack_toModel d) hdn hd₀ hle hpos
  have hleft₀ := level_pack (nonneg_sub (unpack_toModel d) (unpack_toModel m) hle)
  rw [unpack_pack hleft.1] at hleft₀
  have hshare := div_within hleft hmf hleft₀ hmost hpos
  have hsub : (m - d).toModel.unpack = _ := unpack_pack hleft.1
  have hdiv : ((m - d) / m).toModel.unpack =
      unpack Format.binary64 (pack Format.binary64 (UnpackedFloat.div Format.binary64
        (m - d).toModel.unpack m.toModel.unpack)) := rfl
  rw [hdiv, hsub, unpack_pack hshare.1.1]
  exact hshare

/-- **What is left of a bound is at most all of it.** -/
theorem share_le_one (hd₀ : ¬ d < 0.0) (hd : d ≤ m) (hm : m.isFinite = true) (hpos : 0.0 < m) :
    (m - d) / m ≤ 1.0 := by
  obtain ⟨hfin, hle⟩ := share_within hd₀ hd hm hpos
  exact le_iff_level.2 ⟨hfin.isNaN, by decide, hle⟩

/-- Nothing is left of a bound without itself. -/
theorem share_self_le (hm : m.isFinite = true) (hpos : 0.0 < m) : (m - m) / m ≤ 0.0 := by
  obtain ⟨M, E, h, hu⟩ := exists_of_level_pos (finite_iff.2 hm) (lt_iff_level.1 hpos).2.2
  have hsub : (m - m).toModel.unpack = .zero .positive := by
    show unpack Format.binary64 (pack Format.binary64 (UnpackedFloat.sub Format.binary64
      m.toModel.unpack m.toModel.unpack)) = _
    have hnone : UnpackedFloat.sub Format.binary64 (.finite .positive M E h)
        (.finite .positive M E h) = .zero .positive := by
      simp only [UnpackedFloat.sub, sub_self]
      rfl
    rw [hu, hnone]
    exact unpack_pack trivial
  have hdiv : ((m - m) / m).toModel.unpack = .zero .positive := by
    show unpack Format.binary64 (pack Format.binary64 (UnpackedFloat.div Format.binary64
      (m - m).toModel.unpack m.toModel.unpack)) = _
    have hnone : UnpackedFloat.div Format.binary64 (.zero .positive) (.finite .positive M E h) =
        .zero .positive := rfl
    rw [hsub, hu, hnone]
    exact unpack_pack trivial
  have hnan : ((m - m) / m).isNaN = false := congrArg UnpackedFloat.isNaN hdiv
  refine le_iff_level.2 ⟨hnan, by decide, ?_⟩
  rw [hdiv]
  decide

end share

end Binary64

end TrackFusion
