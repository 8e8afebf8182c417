import TrackFusion.Proofs.Exact
import TrackFusion.Geometry.Angle
import TrackFusion.Geometry.Point

/-!
# Angles

Angles that differ by whole turns point the same way.

* `Scalar.modulo_spec`, `modulo_add_int_mul`: representatives modulo a period, over the reals.
* `Scalar.round_spec`, `round_add_int`: rounding to whole numbers.
* `Angle.Alike`: angles that differ by whole turns.
* `Angle.normalize_mem`, `normalize_add_turns`, `difference_add_turns`: whole turns do not count.
* `Angle.difference_self`: a heading has no angle to itself.
* `Point.rotate_add_turns`, `Point.turnBack_rotate`: points that are turned, and turned back.
-/

namespace TrackFusion

/-! ### Representatives -/

namespace Scalar

theorem remainder_spec (a : ℝ) {m : ℝ} (hm : 0 < m) :
    ∃ n : ℤ, remainder a m = a - n * m ∧ -m < remainder a m ∧ remainder a m < m := by
  have hmul : a / m * m = a := div_mul_cancel₀ a hm.ne'
  by_cases h : 0 ≤ a / m
  · have hremainder : remainder a m = a - m * (⌊a / m⌋ : ℝ) := if_pos h
    have hle := mul_le_mul_of_nonneg_right (Int.floor_le (a / m)) hm.le
    have hlt := mul_lt_mul_of_pos_right (Int.lt_floor_add_one (a / m)) hm
    exact ⟨⌊a / m⌋, by rw [hremainder, mul_comm], by linarith, by linarith⟩
  · have hremainder : remainder a m = a - m * (⌈a / m⌉ : ℝ) := if_neg h
    have hle := mul_le_mul_of_nonneg_right (Int.le_ceil (a / m)) hm.le
    have hlt := mul_lt_mul_of_pos_right (Int.ceil_lt_add_one (a / m)) hm
    exact ⟨⌈a / m⌉, by rw [hremainder, mul_comm], by linarith, by linarith⟩

/-- **The representative of a number** modulo a period. -/
theorem modulo_spec (a : ℝ) {m : ℝ} (hm : 0 < m) :
    ∃ n : ℤ, modulo a m = a - n * m ∧ 0 ≤ modulo a m ∧ modulo a m < m := by
  obtain ⟨n, hn, hlow, hhigh⟩ := remainder_spec a hm
  by_cases h : remainder a m < 0
  · have hmodulo : modulo a m = remainder a m + m := if_pos h
    refine ⟨n - 1, ?_, by linarith, by linarith⟩
    rw [hmodulo, hn]
    push_cast
    ring
  · have hmodulo : modulo a m = remainder a m := if_neg h
    exact ⟨n, hmodulo.trans hn, by linarith, by linarith⟩

theorem modulo_eq (a : ℝ) {m : ℝ} (hm : 0 < m) : modulo a m = a - ⌊a / m⌋ * m := by
  obtain ⟨n, hn, hlow, hhigh⟩ := modulo_spec a hm
  have hfloor : ⌊a / m⌋ = n := by
    rw [Int.floor_eq_iff, le_div_iff₀ hm, div_lt_iff₀ hm]
    constructor <;> linarith
  rw [hn, hfloor]

theorem modulo_add_int_mul (a : ℝ) {m : ℝ} (hm : 0 < m) (n : ℤ) :
    modulo (a + n * m) m = modulo a m := by
  have hfloor : ⌊(a + n * m) / m⌋ = ⌊a / m⌋ + n := by
    rw [add_div, mul_div_cancel_right₀ _ hm.ne', Int.floor_add_intCast]
  rw [modulo_eq _ hm, modulo_eq _ hm, hfloor]
  push_cast
  ring

end Scalar

/-! ### Rounding -/

namespace Scalar

theorem round_eq (x : ℝ) :
    (round x : ℝ) = if 0 ≤ x then (⌊x + 1 / 2⌋ : ℝ) else (⌈x - 1 / 2⌉ : ℝ) := rfl

/-- Rounding gives a whole number that is as near as any. -/
theorem round_spec (x : ℝ) : ∃ n : ℤ, (round x : ℝ) = n ∧ |n - x| ≤ 1 / 2 := by
  rw [round_eq]
  split
  · refine ⟨⌊x + 1 / 2⌋, rfl, ?_⟩
    have hle := Int.floor_le (x + 1 / 2)
    have hlt := Int.lt_floor_add_one (x + 1 / 2)
    rw [abs_le]
    constructor <;> linarith
  · refine ⟨⌈x - 1 / 2⌉, rfl, ?_⟩
    have hle := Int.le_ceil (x - 1 / 2)
    have hlt := Int.ceil_lt_add_one (x - 1 / 2)
    rw [abs_le]
    constructor <;> linarith

/-- Away from the halves there is one nearest whole number. -/
theorem round_eq_of_abs_lt {x : ℝ} {n : ℤ} (h : |n - x| < 1 / 2) : (round x : ℝ) = n := by
  obtain ⟨m, hm, hnear⟩ := round_spec x
  have hclose : |((m - n : ℤ) : ℝ)| < 1 := by
    calc |((m - n : ℤ) : ℝ)| = |(m - x) - (n - x)| := by push_cast; ring_nf
      _ ≤ |m - x| + |n - x| := abs_sub _ _
      _ < 1 := by linarith
  have hsame : m - n = 0 := Int.abs_lt_one_iff.1 (by exact_mod_cast hclose)
  rw [hm, sub_eq_zero.1 hsame]

/-- **Rounding moves along by whole numbers**, but for the halves. -/
theorem round_add_int {x : ℝ} (hx : ∀ n : ℤ, x ≠ n + 1 / 2) (k : ℤ) :
    (round (x + k) : ℝ) = round x + k := by
  obtain ⟨n, hn, hnear⟩ := round_spec x
  have hstrict : |n - x| < 1 / 2 := by
    refine lt_of_le_of_ne hnear fun hhalf => ?_
    rcases (abs_eq (by norm_num)).1 hhalf with h | h
    · exact hx (n - 1) (by push_cast; linarith)
    · exact hx n (by linarith)
  have hmoved : |((n + k : ℤ) : ℝ) - (x + k)| < 1 / 2 := by
    push_cast
    rwa [add_sub_add_right_eq_sub]
  rw [round_eq_of_abs_lt hmoved, hn]
  push_cast
  rfl

end Scalar

/-! ### Turns -/

theorem Scalar.ofInt_eq (k : ℤ) : (ofInt k : ℝ) = k := by
  unfold ofInt
  split
  · next h => rw [← Int.cast_natCast, ← Int.cast_neg, Int.ofNat_natAbs_of_nonpos h.le, neg_neg]
  · next h => rw [← Int.cast_natCast, Int.natAbs_of_nonneg (not_lt.1 h)]

theorem Scalar.fullTurn_eq : (2.0 * Scalar.pi : ℝ) = 2 * Real.pi := by
  show (2.0 : ℝ) * Real.pi = 2 * Real.pi
  norm_num

namespace Angle

/-- Two angles differ by whole turns. -/
def Alike {α : Type} [Scalar α] (a b : α) : Prop :=
  ∃ turns : ℤ, b = a + Scalar.ofInt turns * (2.0 * Scalar.pi)

theorem alike_iff {a b : ℝ} : Alike a b ↔ ∃ turns : ℤ, b = a + turns * (2 * Real.pi) := by
  unfold Alike
  simp only [Scalar.ofInt_eq, Scalar.fullTurn_eq]

theorem Alike.refl (a : ℝ) : Alike a a := alike_iff.2 ⟨0, by simp⟩

/-- Angles that differ by whole turns have one representative. -/
theorem normalize_eq (angle : ℝ) : ∃ n : ℤ, normalize angle = angle - n * (2 * Real.pi) := by
  obtain ⟨n, hn, -, -⟩ := Scalar.modulo_spec angle Real.two_pi_pos
  rw [normalize, Scalar.fullTurn_eq, hn]
  split
  · exact ⟨n + 1, by push_cast; ring⟩
  · exact ⟨n, rfl⟩

theorem normalize_mem (angle : ℝ) : normalize angle ∈ Set.Ioc (-Real.pi) Real.pi := by
  obtain ⟨n, hn, hlow, hhigh⟩ := Scalar.modulo_spec angle Real.two_pi_pos
  have hpi : (Scalar.pi : ℝ) = Real.pi := rfl
  have hpos := Real.pi_pos
  rw [normalize, Scalar.fullTurn_eq, hpi]
  split
  · next hhalf => constructor <;> linarith
  · next hhalf => constructor <;> linarith

theorem normalize_add_turns (angle : ℝ) (n : ℤ) :
    normalize (angle + n * (2 * Real.pi)) = normalize angle := by
  rw [normalize, normalize, Scalar.fullTurn_eq, Scalar.modulo_add_int_mul _ Real.two_pi_pos]

theorem Alike.eq_of_mem {a b : ℝ} (h : Alike a b) (ha : a ∈ Set.Ioc (-Real.pi) Real.pi)
    (hb : b ∈ Set.Ioc (-Real.pi) Real.pi) : a = b := by
  obtain ⟨n, rfl⟩ := alike_iff.1 h
  have hpi := Real.pi_pos
  obtain ⟨hlow, hhigh⟩ := ha
  obtain ⟨hlow', hhigh'⟩ := hb
  have hup : (n : ℝ) < 1 := by
    by_contra hge
    have := mul_le_mul_of_nonneg_right (not_lt.1 hge) Real.two_pi_pos.le
    linarith
  have hdown : (-1 : ℝ) < n := by
    by_contra hle
    have := mul_le_mul_of_nonneg_right (not_lt.1 hle) Real.two_pi_pos.le
    linarith
  have hzero : n = 0 := by
    have hup' : n < 1 := by exact_mod_cast hup
    have hdown' : -1 < n := by exact_mod_cast hdown
    omega
  rw [hzero, Int.cast_zero, zero_mul, add_zero]

theorem alike_normalize (angle : ℝ) : Alike angle (normalize angle) := by
  obtain ⟨n, hn⟩ := normalize_eq angle
  refine alike_iff.2 ⟨-n, ?_⟩
  rw [hn]
  push_cast
  ring

theorem wrap_add_int_mul {range : ℝ} (h : 0 < range) (angle : ℝ) (n : ℤ) :
    wrap range (angle + n * (2 * range)) = wrap range angle := by
  have htwo : (2.0 : ℝ) = 2 := by norm_num
  unfold wrap
  rw [htwo, add_right_comm, Scalar.modulo_add_int_mul _ (by linarith)]

theorem wrap_zero {range : ℝ} (h : 0 < range) : wrap range 0 = 0 := by
  have htwo : (2.0 : ℝ) = 2 := by norm_num
  have hfloor : ⌊range / (2 * range)⌋ = 0 := by
    rw [Int.floor_eq_zero_iff]
    exact ⟨by positivity, (div_lt_one (by linarith)).2 (by linarith)⟩
  unfold wrap
  rw [htwo, zero_add, Scalar.modulo_eq _ (by linarith), hfloor, Int.cast_zero, zero_mul, sub_zero,
    sub_self]

theorem difference_self (a : ℝ) (frontBack : Bool) : difference a a frontBack = 0 := by
  have hpi : (0 : ℝ) < Scalar.pi := Real.pi_pos
  unfold difference
  simp only [sub_self]
  cases frontBack with
  | true => exact wrap_zero hpi
  | false =>
    refine wrap_zero (div_pos hpi ?_)
    norm_num

theorem wrap_add_turns (a : ℝ) (n : ℤ) (frontBack : Bool) :
    wrap (if frontBack then Scalar.pi else Scalar.pi / 2.0) (a + n * (2 * Real.pi)) =
      wrap (if frontBack then Scalar.pi else Scalar.pi / 2.0) a := by
  have hpi : (Scalar.pi : ℝ) = Real.pi := rfl
  cases frontBack with
  | true => simp only [if_true, hpi, wrap_add_int_mul Real.pi_pos]
  | false =>
    have hhalf : (Scalar.pi / 2.0 : ℝ) = Real.pi / 2 := by
      rw [hpi]
      norm_num
    have hturns : (n * (2 * Real.pi) : ℝ) = (2 * n : ℤ) * (2 * (Real.pi / 2)) := by
      push_cast
      ring
    simp only [Bool.false_eq_true, if_false, hhalf, hturns, wrap_add_int_mul Real.pi_div_two_pos]

/-- Whole turns do not count between headings, whether or not the front is told from the back. -/
theorem difference_add_turns (a b : ℝ) (m n : ℤ) (frontBack : Bool) :
    difference (a + m * (2 * Real.pi)) (b + n * (2 * Real.pi)) frontBack =
      difference a b frontBack := by
  unfold difference
  dsimp only
  rw [wrap_add_turns, wrap_add_turns]

end Angle

/-! ### Turned points -/

theorem Scalar.sin_add_turns (angle : ℝ) (n : ℤ) :
    (sin (angle + n * (2 * Real.pi)) : ℝ) = sin angle :=
  Real.sin_add_int_mul_two_pi angle n

theorem Scalar.cos_add_turns (angle : ℝ) (n : ℤ) :
    (cos (angle + n * (2 * Real.pi)) : ℝ) = cos angle :=
  Real.cos_add_int_mul_two_pi angle n

namespace Point

theorem rotate_add_turns (p : Point ℝ) (angle : ℝ) (n : ℤ) :
    p.rotate (angle + n * (2 * Real.pi)) = p.rotate angle := by
  rw [rotate, rotate, Scalar.sin_add_turns, Scalar.cos_add_turns]

theorem turnBack_add_turns (p : Point ℝ) (angle : ℝ) (n : ℤ) :
    p.turnBack (angle + n * (2 * Real.pi)) = p.turnBack angle := by
  rw [turnBack, turnBack, Scalar.sin_add_turns, Scalar.cos_add_turns]

/-- A point that is turned and turned back is where it was. -/
theorem turnBack_rotate (p : Point ℝ) (angle : ℝ) : (p.rotate angle).turnBack angle = p := by
  have hcircle : Real.sin angle ^ 2 + Real.cos angle ^ 2 = 1 := Real.sin_sq_add_cos_sq angle
  obtain ⟨x, y⟩ := p
  unfold rotate turnBack
  rw [mk.injEq]
  constructor
  · show (x * Real.cos angle - y * Real.sin angle) * Real.cos angle +
      (x * Real.sin angle + y * Real.cos angle) * Real.sin angle = x
    linear_combination x * hcircle
  · show -(x * Real.cos angle - y * Real.sin angle) * Real.sin angle +
      (x * Real.sin angle + y * Real.cos angle) * Real.cos angle = y
    linear_combination y * hcircle

end Point

theorem Angle.rotate_normalize (p : Point ℝ) (angle : ℝ) :
    p.rotate (normalize angle) = p.rotate angle := by
  obtain ⟨n, hn⟩ := normalize_eq angle
  have hback : normalize angle + n * (2 * Real.pi) = angle := by
    rw [hn]
    ring
  rw [← p.rotate_add_turns (normalize angle) n, hback]

end TrackFusion
