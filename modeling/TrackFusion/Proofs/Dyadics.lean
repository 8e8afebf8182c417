import TrackFusion.Proofs.Nearest
import TrackFusion.Proofs.Zeros

/-!
# Doubles that are computed without rounding

A sum, a difference or a product that is a double is not rounded. That is so for multiples of a power
of two with at most 53 digits.

* `exists_double`: such a multiple is a double.
* `units_of_level`: what is rounded to the place of a double is that double.
* `level_mul`: products that are doubles.
* `value`: the number that a double stands for.
* `OnGrid`: multiples of a power of two, with `OnGrid.add`, `OnGrid.sub` and `OnGrid.mul`.
-/

namespace TrackFusion

namespace Binary64

open Float.Model (Format UnpackedFloat totalExponent)
open Float.Model.UnpackedFloat

/-! ### Doubles as whole numbers -/

theorem units_le_iff {a b : UnpackedFloat} (ha : Finite a) (hb : Finite b) :
    units a ≤ units b ↔ level a ≤ level b := by
  refine ⟨fun h => ?_, units_mono ha hb⟩
  rw [← nearestInt_units ha, ← nearestInt_units hb]
  exact nearestInt_mono h

theorem units_eq_iff {a b : UnpackedFloat} (ha : Finite a) (hb : Finite b) :
    units a = units b ↔ level a = level b := by
  rw [le_antisymm_iff, le_antisymm_iff, units_le_iff ha hb, units_le_iff hb ha]

/-- A multiple of a power of two with at most 53 digits is a double. -/
theorem exists_double {k e : ℤ} (hk : |k| < 2 ^ 53) (hmin : -1074 ≤ e) (hmax : e ≤ 971) :
    ∃ c, Finite c ∧ units c = k * 2 ^ (e + 1074).toNat := by
  obtain ⟨s, n, rfl⟩ : ∃ (s : Sign) (n : ℕ), k = s.apply n := by
    rcases le_total 0 k with h | h
    · exact ⟨.positive, k.toNat, (Int.toNat_of_nonneg h).symm⟩
    · refine ⟨.negative, (-k).toNat, ?_⟩
      rw [Sign.apply, Int.toNat_of_nonneg (neg_nonneg.2 h), neg_neg]
  rcases Nat.eq_zero_or_pos n with rfl | hn
  · refine ⟨.zero s, ⟨trivial, rfl⟩, ?_⟩
    cases s <;> simp [units, Sign.apply]
  have hlt : n < 2 ^ 53 := by
    cases s <;> simp only [Sign.apply, abs_neg, Nat.abs_cast] at hk <;> exact_mod_cast hk
  have hlog : n.log2 ≤ 52 := by
    have := (Nat.log2_lt hn.ne').2 hlt
    omega
  by_cases hsub : n.log2 + (e + 1074).toNat ≤ 52
  · -- subnormal, or just not
    have hm : n * 2 ^ (e + 1074).toNat < 2 ^ 53 := by
      rw [← Nat.shiftLeft_eq, ← Nat.log2_lt (Nat.shiftLeft_pos_iff.2 hn).ne', log2_shiftLeft hn]
      omega
    refine ⟨.finite s (n * 2 ^ (e + 1074).toNat) (-1074) (by positivity),
      ⟨⟨hm, le_rfl, by decide, .inr rfl⟩, rfl⟩, ?_⟩
    rw [units, neg_add_cancel, Int.toNat_zero, pow_zero, mul_one, apply_mul_pow]
  · -- the leading bit is moved to its place
    obtain ⟨t, ht⟩ : ∃ t, n.log2 + t = 52 := ⟨52 - n.log2, by omega⟩
    have hm : 2 ^ 52 ≤ n * 2 ^ t ∧ n * 2 ^ t < 2 ^ 53 := by
      rw [← Nat.shiftLeft_eq, ← Nat.log2_eq_iff (Nat.shiftLeft_pos_iff.2 hn).ne',
        log2_shiftLeft hn, ht]
    refine ⟨.finite s (n * 2 ^ t) (e - t) (by positivity),
      ⟨⟨hm.2, by omega, by omega, .inl hm.1⟩, rfl⟩, ?_⟩
    have hexp : t + (e - t + 1074).toNat = (e + 1074).toNat := by omega
    rw [units, mul_assoc, ← pow_add, hexp, apply_mul_pow]

/-! ### Exact results -/

/-- What is rounded to the place of a finite double stands for that double. -/
theorem units_of_level {u c : UnpackedFloat} (hu : Roundable u) (hnan : u.isNaN = false)
    (hc : Finite c) (h : level u = level c) :
    Finite (unpack Format.binary64 (pack Format.binary64 u)) ∧
      units (unpack Format.binary64 (pack Format.binary64 u)) = units c := by
  have hlevel : level (unpack Format.binary64 (pack Format.binary64 u)) = level c := by
    rw [level_pack_eq hu, h, clamp_level hc.1]
  have hlt := hc.level_lt
  rw [← hlevel] at hlt
  have hfin : Finite (unpack Format.binary64 (pack Format.binary64 u)) := by
    rcases finite_or_infinity (fields_unpack _).canonical ((isNaN_unpack_pack u).trans hnan) with
      hfin | ⟨s, hinf⟩
    · exact hfin
    · rw [hinf] at hlt
      cases s with
      | negative => exact absurd hlt.1 (lt_irrefl _)
      | positive => exact absurd hlt.2 (lt_irrefl _)
  exact ⟨hfin, (units_eq_iff hfin hc).2 hlevel⟩

theorem add_eq_sub_neg (a b : UnpackedFloat) : UnpackedFloat.add Format.binary64 a b =
    UnpackedFloat.sub Format.binary64 a (UnpackedFloat.neg b) := by
  cases a with
  | notANumber => cases b <;> rfl
  | infinity s =>
    cases b with
    | infinity s' => cases s <;> cases s' <;> rfl
    | _ => rfl
  | zero s =>
    cases b with
    | infinity s' => cases s' <;> rfl
    | zero s' => cases s <;> cases s' <;> rfl
    | finite s' m' e' h' => cases s' <;> rfl
    | notANumber => rfl
  | finite s m e h =>
    cases b with
    | infinity s' => cases s' <;> rfl
    | finite s' m' e' h' =>
      cases s' <;>
        simp [UnpackedFloat.add, UnpackedFloat.sub, UnpackedFloat.neg, Sign.apply, sub_eq_add_neg]
    | _ => rfl

theorem Finite.neg {a : UnpackedFloat} (h : Finite a) : Finite (UnpackedFloat.neg a) := by
  obtain ⟨hc, hfin⟩ := h
  cases a with
  | notANumber => cases hfin
  | infinity s => cases hfin
  | zero s => exact ⟨trivial, rfl⟩
  | finite s m e h => exact ⟨hc, rfl⟩

theorem units_neg (a : UnpackedFloat) : units (UnpackedFloat.neg a) = -units a := by
  cases a with
  | finite s m e h => cases s <;> simp [units, UnpackedFloat.neg, Sign.apply]
  | _ => rfl

/-- A product is rounded from all its digits. -/
theorem product_exponent_le {m m' : ℕ} {e e' : ℤ} {s s' : Sign} {h : 0 < m} {h' : 0 < m'}
    (hc : Canonical (.finite s m e h)) (hc' : Canonical (.finite s' m' e' h')) :
    e + e' ≤ max (totalExponent (m * m') (e + e') - 53) (-1074) := by
  obtain ⟨-, -, hmax, hlead⟩ := hc
  obtain ⟨-, -, hmax', hlead'⟩ := hc'
  have hpos := Nat.mul_pos h h'
  have htotal : totalExponent (m * m') (e + e') = (m * m').log2 + 1 + (e + e') := rfl
  rcases hlead with hlead | rfl
  · have : 52 ≤ (m * m').log2 :=
      (Nat.le_log2 hpos.ne').2 (hlead.trans (Nat.le_mul_of_pos_right m h'))
    omega
  · rcases hlead' with hlead' | rfl
    · have : 52 ≤ (m * m').log2 :=
        (Nat.le_log2 hpos.ne').2 (hlead'.trans (Nat.le_mul_of_pos_left m' h))
      omega
    · omega

theorem apply_mul (s s' : Sign) (n n' : ℤ) : s.apply n * s'.apply n' = (s * s').apply (n * n') := by
  cases s <;> cases s'
  · exact neg_mul_neg n n'
  · exact neg_mul n n'
  · exact mul_neg n n'
  · rfl

theorem apply_inj {s s' : Sign} {n n' : ℕ} (hn : 0 < n) (h : s.apply (n : ℤ) = s'.apply (n' : ℤ)) :
    s = s' ∧ n = n' := by
  cases s <;> cases s' <;> simp only [Sign.apply] at h
  · exact ⟨rfl, by omega⟩
  · omega
  · omega
  · exact ⟨rfl, by omega⟩

theorem level_mul_finite {m m' M : ℕ} {e e' E : ℤ} {s s' S : Sign} {h : 0 < m} {h' : 0 < m'}
    {H : 0 < M} (hc : Canonical (.finite s m e h)) (hc' : Canonical (.finite s' m' e' h'))
    (hC : Canonical (.finite S M E H))
    (hval : units (.finite s m e h) * units (.finite s' m' e' h') =
      units (.finite S M E H) * 2 ^ 1074) :
    level (UnpackedFloat.mul Format.binary64 (.finite s m e h) (.finite s' m' e' h')) =
      level (.finite S M E H) := by
  have hexp := product_exponent_le hc hc'
  have hmin := hc.2.1
  have hmin' := hc'.2.1
  obtain ⟨hM, hMin, -, hlead⟩ := hC
  have hpos := Nat.mul_pos h h'
  obtain ⟨hsign, hmag⟩ : s * s' = S ∧
      m * m' * 2 ^ ((e + 1074).toNat + (e' + 1074).toNat) = M * 2 ^ ((E + 1074).toNat + 1074) := by
    have hprod : m * m' * 2 ^ ((e + 1074).toNat + (e' + 1074).toNat) =
        m * 2 ^ (e + 1074).toNat * (m' * 2 ^ (e' + 1074).toNat) := by
      rw [pow_add]
      ring
    refine apply_inj (by positivity) ?_
    rw [units, units, units, apply_mul, apply_mul_pow, mul_assoc M, ← pow_add] at hval
    rw [hprod, ← hval, Nat.cast_mul]
  -- both sides have the same leading bit, so the product is rounded to the place of the double
  have hlog := congrArg Nat.log2 hmag
  rw [← Nat.shiftLeft_eq, ← Nat.shiftLeft_eq, log2_shiftLeft hpos, log2_shiftLeft H] at hlog
  have htotal : totalExponent (m * m') (e + e') = (m * m').log2 + 1 + (e + e') := rfl
  have hlogM : M.log2 ≤ 52 := by
    have := (Nat.log2_lt H.ne').2 hM
    omega
  have htarget : max (totalExponent (m * m') (e + e') - 53) (-1074) = E := by
    rcases hlead with hlead | rfl
    · have := (Nat.le_log2 H.ne').2 hlead
      omega
    · omega
  obtain ⟨k, hk⟩ : ∃ k : ℕ, e + e' + k = E := ⟨(E - (e + e')).toNat, by omega⟩
  have hsplit : m * m' = M * 2 ^ k := by
    refine Nat.eq_of_mul_eq_mul_right
      (Nat.two_pow_pos ((e + 1074).toNat + (e' + 1074).toNat)) ?_
    rw [hmag, mul_assoc, ← pow_add]
    congr 2
    omega
  have hround : rounded (m * m') .exact k = M := by
    have := rounded_mul_pow M 0 k
    rw [zero_add] at this
    rw [hsplit, this]
    rfl
  show level (roundWithAccuracy Format.binary64 (s * s') (m * m') (e + e') .exact) = _
  rw [level_roundWithAccuracy (s * s') .exact (k := k) (by omega), hround, hk, hsign, level]

theorem units_eq_zero {u : UnpackedFloat} (h : Finite u) (hu : units u = 0) : ∃ s, u = .zero s := by
  obtain ⟨-, hfin⟩ := h
  cases u with
  | notANumber => cases hfin
  | infinity s => cases hfin
  | zero s => exact ⟨s, rfl⟩
  | finite s m e hm =>
    have hpos : 0 < m * 2 ^ (e + 1074).toNat := by positivity
    cases s <;> simp only [units, Sign.apply] at hu <;> omega

theorem roundable_mul {a b : UnpackedFloat} (ha : Finite a) (hb : Finite b) :
    Roundable (UnpackedFloat.mul Format.binary64 a b) ∧
      (UnpackedFloat.mul Format.binary64 a b).isNaN = false := by
  obtain ⟨hca, hfa⟩ := ha
  obtain ⟨hcb, hfb⟩ := hb
  cases a with
  | notANumber => cases hfa
  | infinity s => cases hfa
  | zero s =>
    cases b with
    | notANumber => cases hfb
    | infinity s' => cases hfb
    | zero s' => exact ⟨trivial, rfl⟩
    | finite s' m' e' h' => exact ⟨trivial, rfl⟩
  | finite s m e h =>
    cases b with
    | notANumber => cases hfb
    | infinity s' => cases hfb
    | zero s' => exact ⟨trivial, rfl⟩
    | finite s' m' e' h' =>
      have hexp := product_exponent_le hca hcb
      obtain ⟨k, hk⟩ : ∃ k : ℕ, e + e' + k = max (totalExponent (m * m') (e + e') - 53) (-1074) :=
        ⟨(max (totalExponent (m * m') (e + e') - 53) (-1074) - (e + e')).toNat, by omega⟩
      obtain ⟨-, heq⟩ := roundWithAccuracy_eq (s * s') .exact hk
      refine ⟨roundable_roundWithAccuracy (s * s') .exact hk, ?_⟩
      show (roundWithAccuracy Format.binary64 (s * s') (m * m') (e + e') .exact).isNaN = false
      rw [heq]
      split
      · rfl
      · split <;> rfl

/-- **Products that are doubles** are not rounded. -/
theorem level_mul {a b c : UnpackedFloat} (ha : Finite a) (hb : Finite b) (hc : Finite c)
    (h : units a * units b = units c * 2 ^ 1074) :
    level (UnpackedFloat.mul Format.binary64 a b) = level c := by
  by_cases hzero : units c = 0
  · obtain ⟨s, rfl⟩ := units_eq_zero hc hzero
    rw [hzero, zero_mul, mul_eq_zero] at h
    rcases h with h | h
    · obtain ⟨s', rfl⟩ := units_eq_zero ha h
      obtain ⟨-, hfb⟩ := hb
      cases b with
      | notANumber => cases hfb
      | infinity s' => cases hfb
      | _ => rfl
    · obtain ⟨s', rfl⟩ := units_eq_zero hb h
      obtain ⟨-, hfa⟩ := ha
      cases a with
      | notANumber => cases hfa
      | infinity s' => cases hfa
      | _ => rfl
  · have hpow : (2 : ℤ) ^ 1074 ≠ 0 := pow_ne_zero _ two_ne_zero
    have hne : units a * units b ≠ 0 := h ▸ mul_ne_zero hzero hpow
    have hfinite {u : UnpackedFloat} (hu : units u ≠ 0) : ∃ s m e h, u = .finite s m e h := by
      cases u with
      | finite s m e h => exact ⟨s, m, e, h, rfl⟩
      | _ => exact absurd rfl hu
    obtain ⟨s, m, e, hm, rfl⟩ := hfinite (left_ne_zero_of_mul hne)
    obtain ⟨s', m', e', hm', rfl⟩ := hfinite (right_ne_zero_of_mul hne)
    obtain ⟨S, M, E, hM, rfl⟩ := hfinite hzero
    exact level_mul_finite ha.1 hb.1 hc.1 h

/-! ### Values -/

/-- The number that a finite double stands for. -/
def value (x : Float) : ℚ := units x.toModel.unpack / 2 ^ 1074

variable {x y : Float} {e f b c k : ℤ}

theorem value_le_iff (hx : x.isFinite = true) (hy : y.isFinite = true) :
    value x ≤ value y ↔ x ≤ y := by
  have hfx := finite_iff.2 hx
  have hfy := finite_iff.2 hy
  have hnan : x.isNaN = false ∧ y.isNaN = false := ⟨hfx.isNaN, hfy.isNaN⟩
  rw [value, value, div_le_div_iff_of_pos_right (by positivity), Int.cast_le,
    units_le_iff hfx hfy, le_iff_level, and_iff_right hnan.1, and_iff_right hnan.2]

theorem value_lt_iff (hx : x.isFinite = true) (hy : y.isFinite = true) :
    value x < value y ↔ x < y := by
  rw [lt_iff_le_not_ge, value_le_iff hx hy, value_le_iff hy hx, ← OrderedScalar.lt_iff]

/-- Doubles compare as equal if they stand for the same number. -/
theorem value_eq_iff (hx : x.isFinite = true) (hy : y.isFinite = true) :
    value x = value y ↔ (x == y) = true := by
  have hnan : x.isNaN = false ∧ y.isNaN = false :=
    ⟨(finite_iff.2 hx).isNaN, (finite_iff.2 hy).isNaN⟩
  rw [le_antisymm_iff, value_le_iff hx hy, value_le_iff hy hx, le_iff_place, le_iff_place,
    beq_iff_place]
  simp only [hnan, true_and, le_antisymm_iff (a := place x)]

theorem value_eq_mul_iff (he : -1074 ≤ e) :
    value x = k * 2 ^ e ↔ units x.toModel.unpack = k * 2 ^ (e + 1074).toNat := by
  have hpow : (2 : ℚ) ^ e * 2 ^ 1074 = 2 ^ (e + 1074).toNat := by
    rw [← zpow_natCast, ← zpow_natCast, ← zpow_add₀ two_ne_zero, Int.toNat_of_nonneg (by omega)]
    rfl
  rw [value, div_eq_iff (by positivity), mul_assoc, hpow]
  exact_mod_cast Iff.rfl

theorem Same.isFinite_eq (h : Same x y) : x.isFinite = y.isFinite := by
  rcases h.alike with h | ⟨s, s', hx, hy⟩
  · exact congrArg UnpackedFloat.isFinite h
  · show x.toModel.unpack.isFinite = y.toModel.unpack.isFinite
    rw [hx, hy]
    rfl

theorem Same.value_eq (h : Same x y) : value x = value y := by
  rcases h.alike with h | ⟨s, s', hx, hy⟩
  · rw [value, value, h]
  · rw [value, value, hx, hy]
    rfl

@[simp] theorem value_zero : value 0 = 0 := by
  have hunits : units (0 : Float).toModel.unpack = 0 := rfl
  rw [value, hunits, Int.cast_zero, zero_div]

theorem value_half : value 0.5 = 2 ^ (-1 : ℤ) := by
  have hunits : units (0.5 : Float).toModel.unpack = 1 * 2 ^ ((-1 : ℤ) + 1074).toNat := by
    decide +kernel
  rw [(value_eq_mul_iff (by omega)).2 hunits, Int.cast_one, one_mul]

/-! ### Multiples of a power of two -/

/-- A double is a multiple of `2 ^ e`, by no more than `b`. -/
structure OnGrid (e b : ℤ) (x : Float) : Prop where
  isFinite : x.isFinite = true
  multiple : ∃ k : ℤ, |k| ≤ b ∧ value x = k * 2 ^ e

namespace OnGrid

theorem nonneg (h : OnGrid e b x) : 0 ≤ b := by
  obtain ⟨k, hk, -⟩ := h.multiple
  exact (abs_nonneg k).trans hk

/-- On a grid are the doubles whose digits are. -/
theorem iff_units (he : -1074 ≤ e) : OnGrid e b x ↔ x.isFinite = true ∧
    2 ^ (e + 1074).toNat ∣ units x.toModel.unpack ∧
      |units x.toModel.unpack| ≤ b * 2 ^ (e + 1074).toNat := by
  have hpow : (0 : ℤ) < 2 ^ (e + 1074).toNat := by positivity
  have habs (k : ℤ) : |k * 2 ^ (e + 1074).toNat| ≤ b * 2 ^ (e + 1074).toNat ↔ |k| ≤ b := by
    rw [abs_mul, abs_of_pos hpow, mul_le_mul_iff_left₀ hpow]
  constructor
  · rintro ⟨hfin, k, hk, hvalue⟩
    have hunits := (value_eq_mul_iff he).1 hvalue
    exact ⟨hfin, Dvd.intro_left k hunits.symm, hunits ▸ (habs k).2 hk⟩
  · rintro ⟨hfin, ⟨k, hunits⟩, hle⟩
    rw [mul_comm] at hunits
    exact ⟨hfin, k, (habs k).1 (hunits ▸ hle), (value_eq_mul_iff he).2 hunits⟩

theorem of_same (h : OnGrid e b x) (hxy : Same x y) : OnGrid e b y :=
  ⟨hxy.isFinite_eq ▸ h.isFinite, hxy.value_eq ▸ h.multiple⟩

/-- What is rounded to the place of a multiple is that multiple. -/
theorem of_level {u : UnpackedFloat} (hu : Roundable u) (hnan : u.isNaN = false) (he : -1074 ≤ e)
    (he' : e ≤ 971) (hk : |k| ≤ b) (hb : b < 2 ^ 53)
    (h : ∀ c, Finite c → units c = k * 2 ^ (e + 1074).toNat → level u = level c) :
    OnGrid e b (.ofModel (Float.Model.pack u)) ∧
      value (.ofModel (Float.Model.pack u)) = k * 2 ^ e := by
  obtain ⟨c, hc, hunits⟩ := exists_double (hk.trans_lt hb) he he'
  obtain ⟨hfin, heq⟩ := units_of_level hu hnan hc (h c hc hunits)
  have hvalue := (value_eq_mul_iff (x := .ofModel (Float.Model.pack u)) he).2 (heq.trans hunits)
  exact ⟨⟨finite_iff.1 hfin, k, hk, hvalue⟩, hvalue⟩

/-- Sums are differences, too, so these are taken from anything that is a multiple. -/
theorem sub_unpacked {v : UnpackedFloat} {l : ℤ} (hx : OnGrid e b x) (hv : Finite v)
    (hunits : units v = l * 2 ^ (e + 1074).toNat) (hl : |l| ≤ c) (he : -1074 ≤ e) (he' : e ≤ 971)
    (h : b + c < 2 ^ 53) :
    OnGrid e (b + c) (.ofModel (Float.Model.pack (.sub Format.binary64 x.toModel.unpack v))) ∧
      value (.ofModel (Float.Model.pack (.sub Format.binary64 x.toModel.unpack v))) =
        value x - l * 2 ^ e := by
  obtain ⟨k, hk, hvalue⟩ := hx.multiple
  have hfin := finite_iff.2 hx.isFinite
  have hux := (value_eq_mul_iff he).1 hvalue
  have hbound : |k - l| ≤ b + c := (abs_sub k l).trans (add_le_add hk hl)
  obtain ⟨hgrid, heq⟩ := of_level (roundable_sub hfin hv) (isNaN_sub_unpacked hfin.isNaN hv.2)
    he he' hbound h fun d hd hud => by
      rw [level_sub hfin hv, hux, hunits, ← sub_mul, ← hud, nearestInt_units hd]
  refine ⟨hgrid, heq.trans ?_⟩
  rw [hvalue, Int.cast_sub, sub_mul]

theorem sub (hx : OnGrid e b x) (hy : OnGrid e c y) (he : -1074 ≤ e) (he' : e ≤ 971)
    (h : b + c < 2 ^ 53) : OnGrid e (b + c) (x - y) ∧ value (x - y) = value x - value y := by
  obtain ⟨l, hl, hvalue⟩ := hy.multiple
  rw [hvalue]
  exact hx.sub_unpacked (finite_iff.2 hy.isFinite) ((value_eq_mul_iff he).1 hvalue) hl he he' h

theorem add (hx : OnGrid e b x) (hy : OnGrid e c y) (he : -1074 ≤ e) (he' : e ≤ 971)
    (h : b + c < 2 ^ 53) : OnGrid e (b + c) (x + y) ∧ value (x + y) = value x + value y := by
  obtain ⟨l, hl, hvalue⟩ := hy.multiple
  have hunits : units (UnpackedFloat.neg y.toModel.unpack) = -l * 2 ^ (e + 1074).toNat := by
    rw [units_neg, (value_eq_mul_iff he).1 hvalue, neg_mul]
  obtain ⟨hgrid, heq⟩ := hx.sub_unpacked (finite_iff.2 hy.isFinite).neg hunits
    ((abs_neg l).trans_le hl) he he' h
  rw [← add_eq_sub_neg] at hgrid heq
  refine ⟨hgrid, heq.trans ?_⟩
  rw [hvalue, Int.cast_neg, neg_mul, sub_neg_eq_add]

theorem mul (hx : OnGrid e b x) (hy : OnGrid f c y) (he : -1074 ≤ e) (hf : -1074 ≤ f)
    (hef : -1074 ≤ e + f) (hef' : e + f ≤ 971) (h : b * c < 2 ^ 53) :
    OnGrid (e + f) (b * c) (x * y) ∧ value (x * y) = value x * value y := by
  obtain ⟨k, hk, hvx⟩ := hx.multiple
  obtain ⟨l, hl, hvy⟩ := hy.multiple
  have hfx := finite_iff.2 hx.isFinite
  have hfy := finite_iff.2 hy.isFinite
  have hux := (value_eq_mul_iff he).1 hvx
  have huy := (value_eq_mul_iff hf).1 hvy
  have hbound : |k * l| ≤ b * c := by
    rw [abs_mul]
    exact mul_le_mul hk hl (abs_nonneg l) hx.nonneg
  obtain ⟨hround, hnan⟩ := roundable_mul hfx hfy
  obtain ⟨hgrid, hvalue⟩ := of_level hround hnan hef hef' hbound h fun d hd hud => by
    have hexp : (e + f + 1074).toNat + 1074 = (e + 1074).toNat + (f + 1074).toNat := by omega
    refine level_mul hfx hfy hd ?_
    rw [hux, huy, hud, mul_assoc (k * l), ← pow_add, hexp, pow_add]
    ring
  refine ⟨hgrid, hvalue.trans ?_⟩
  rw [hvx, hvy, Int.cast_mul, zpow_add₀ two_ne_zero]
  ring

theorem zero : OnGrid e 0 0 := ⟨rfl, 0, by simp, by simp⟩

theorem half : OnGrid (-1) 1 0.5 := ⟨rfl, 1, le_rfl, by rw [value_half, Int.cast_one, one_mul]⟩

end OnGrid

end Binary64

end TrackFusion
