import TrackFusion.Proofs.Angles

/-!
# Headings

Of all angles that point the same way one is taken, and of all angles between two headings the
smallest one. It does not matter for that how long half a circle is.

* `Circular`: exact arithmetic with any number for half a circle.
* `Angle.wrap_eq`, `Angle.normalize_circular`: both are representatives modulo a period, the one in
  an interval that is open above, the other one in an interval that is open below.
* `Angle.abs_le_of_mem`: a representative around zero is the smallest.
* `Angle.Folds`, with `Angle.folds_wrap`: what the angle between two headings should be.
* `Angle.representatives_ok`: all of this together.
-/

namespace TrackFusion

/-- Exact arithmetic in which half the circumference of the unit circle is some number. -/
def Circular (_half : ℝ) : Type := ℝ

noncomputable instance (half : ℝ) : Scalar (Circular half) :=
  { (inferInstance : Scalar ℝ) with pi := half }

namespace Angle

/-! ### Representatives -/

theorem two_mul_pos {range : ℝ} (h : 0 < range) : 0 < 2 * range := mul_pos two_pos h

/-- Wrapping takes the representative from an interval around zero that is open above. -/
theorem wrap_eq {range : ℝ} (h : 0 < range) (angle : ℝ) :
    wrap range angle = toIcoMod (two_mul_pos h) (-range) angle := by
  have htwo : (2.0 : ℝ) = 2 := by norm_num
  obtain ⟨n, hn, hlow, hhigh⟩ := Scalar.modulo_spec (angle + range) (two_mul_pos h)
  symm
  rw [toIcoMod_eq_iff, wrap, htwo]
  refine ⟨⟨by linarith, by linarith⟩, n, ?_⟩
  rw [hn, zsmul_eq_mul]
  ring

/-- Normalizing takes the representative from an interval around zero that is open below. -/
theorem normalize_circular {half : ℝ} (h : 0 < half) (angle : ℝ) :
    @Eq ℝ (normalize (α := Circular half) angle) (toIocMod (two_mul_pos h) (-half) angle) := by
  have htwo : (2.0 : ℝ) = 2 := by norm_num
  have hturn : @Eq ℝ (normalize (α := Circular half) angle)
      (if half < Scalar.modulo angle (2 * half) then Scalar.modulo angle (2 * half) - 2 * half
        else Scalar.modulo angle (2 * half)) := by
    rw [← htwo]
    rfl
  obtain ⟨n, hn, hlow, hhigh⟩ := Scalar.modulo_spec angle (two_mul_pos h)
  rw [hturn, eq_comm, toIocMod_eq_iff]
  split
  · next hbig =>
    refine ⟨⟨by linarith, by linarith⟩, n + 1, ?_⟩
    rw [hn, zsmul_eq_mul]
    push_cast
    ring
  · next hsmall =>
    refine ⟨⟨by linarith, by linarith⟩, n, ?_⟩
    rw [hn, zsmul_eq_mul]
    ring

/-- **A representative around zero is the smallest** of all that differ from it by whole periods. -/
theorem abs_le_of_mem {period r : ℝ} (h : 0 < period)
    (hr : r ∈ Set.Ico (-(period / 2)) (period / 2)) (k : ℤ) : |r| ≤ |r + k * period| := by
  obtain ⟨hlow, hhigh⟩ := hr
  have hhalf : |r| ≤ period / 2 := abs_le.2 ⟨hlow, hhigh.le⟩
  -- any other one is at least half a period away
  rcases lt_trichotomy k 0 with hneg | rfl | hpos
  · have hk : (k : ℝ) ≤ -1 := by exact_mod_cast Int.le_sub_one_of_lt hneg
    have hfar : k * period ≤ -1 * period := mul_le_mul_of_nonneg_right hk h.le
    exact hhalf.trans (le_abs.2 (.inr (by linarith)))
  · rw [Int.cast_zero, zero_mul, add_zero]
  · have hk : (1 : ℝ) ≤ k := by exact_mod_cast hpos
    have hfar : 1 * period ≤ k * period := mul_le_mul_of_nonneg_right hk h.le
    exact hhalf.trans (le_abs.2 (.inl (by linarith)))

/-! ### Angles between headings -/

/-- What the angle from one heading to another should be if headings that differ by whole periods
are the same: at most half a period either way, the same for the same headings, and of all angles
between the two the smallest, whichever of them comes first. -/
structure Folds (period : ℝ) (angle : ℝ → ℝ → ℝ) : Prop where
  mem (a b : ℝ) : angle a b ∈ Set.Ico (-(period / 2)) (period / 2)
  congruent (a b : ℝ) : ∃ n : ℤ, angle a b = a - b + n * period
  periodic (a b : ℝ) (m n : ℤ) : angle (a + m * period) (b + n * period) = angle a b
  smallest (a b : ℝ) : IsLeast (Set.range fun k : ℤ => |a - b + k * period|) |angle a b|
  symmetric (a b : ℝ) : |angle a b| = |angle b a|

/-- Wrapping both headings first makes no difference. -/
theorem wrap_wrap_sub {range : ℝ} (h : 0 < range) (a b : ℝ) :
    wrap range (wrap range a - wrap range b) = wrap range (a - b) := by
  rw [wrap_eq h a, wrap_eq h b, wrap_eq h, wrap_eq h, toIcoMod_eq_toIcoMod]
  refine ⟨toIcoDiv (two_mul_pos h) (-range) a - toIcoDiv (two_mul_pos h) (-range) b, ?_⟩
  rw [sub_zsmul, ← self_sub_toIcoMod, ← self_sub_toIcoMod]
  ring

theorem wrap_congruent {range : ℝ} (h : 0 < range) (angle : ℝ) :
    ∃ n : ℤ, wrap range angle = angle + n * (2 * range) := by
  refine ⟨-toIcoDiv (two_mul_pos h) (-range) angle, ?_⟩
  rw [wrap_eq h, ← sub_eq_iff_eq_add', toIcoMod_sub_self_eq_mul]
  push_cast
  rfl

theorem wrap_mem {range : ℝ} (h : 0 < range) (angle : ℝ) :
    wrap range angle ∈ Set.Ico (-range) range := by
  have hmem := toIcoMod_mem_Ico (two_mul_pos h) (-range) angle
  rwa [← wrap_eq h, two_mul, neg_add_cancel_left] at hmem

/-- The smallest angle is found among those of the difference, and it is the wrapped one. -/
theorem isLeast_abs_wrap {range : ℝ} (h : 0 < range) (x : ℝ) :
    IsLeast (Set.range fun k : ℤ => |x + k * (2 * range)|) |wrap range x| := by
  obtain ⟨n, hn⟩ := wrap_congruent h x
  refine ⟨⟨n, by rw [hn]⟩, ?_⟩
  rintro _ ⟨k, rfl⟩
  have hmem : wrap range x ∈ Set.Ico (-(2 * range / 2)) (2 * range / 2) := by
    rw [mul_div_cancel_left₀ _ two_ne_zero]
    exact wrap_mem h x
  have hother : x + k * (2 * range) = wrap range x + ((k - n : ℤ) : ℝ) * (2 * range) := by
    rw [hn]
    push_cast
    ring
  dsimp only
  rw [hother]
  exact abs_le_of_mem (two_mul_pos h) hmem (k - n)

/-- **The angle between wrapped headings**, wrapped again, is what it should be. -/
theorem folds_wrap {range : ℝ} (h : 0 < range) :
    Folds (2 * range) fun a b => wrap range (wrap range a - wrap range b) := by
  have hsmallest : ∀ a b, IsLeast (Set.range fun k : ℤ => |a - b + k * (2 * range)|)
      |wrap range (a - b)| := fun a b => isLeast_abs_wrap h (a - b)
  simp only [wrap_wrap_sub h]
  refine ⟨fun a b => ?_, fun a b => wrap_congruent h (a - b), fun a b m n => ?_, hsmallest,
    fun a b => ?_⟩
  · rw [mul_div_cancel_left₀ _ two_ne_zero]
    exact wrap_mem h (a - b)
  · have hdiff : a + m * (2 * range) - (b + n * (2 * range)) =
        a - b + ((m - n : ℤ) : ℝ) * (2 * range) := by
      push_cast
      ring
    rw [hdiff, wrap_add_int_mul h]
  · -- the same magnitudes are found from either heading to the other
    have hsame : (Set.range fun k : ℤ => |a - b + k * (2 * range)|) =
        Set.range fun k : ℤ => |b - a + k * (2 * range)| := by
      rw [← neg_surjective.range_comp fun k : ℤ => |b - a + k * (2 * range)|]
      congr 1
      ext k
      rw [Function.comp_apply, ← abs_neg]
      push_cast
      ring_nf
    exact (hsmallest a b).unique (hsame ▸ hsmallest b a)

/-! ### All angles -/

/-- What the representative of an angle should be: the one angle from `-half` to `half`, but for the
former, that differs from it by whole circles. -/
structure Represents (half : ℝ) (representative : ℝ → ℝ) : Prop where
  unique (angle r : ℝ) : r = representative angle ↔
    r ∈ Set.Ioc (-half) half ∧ ∃ n : ℤ, r = angle + n * (2 * half)
  idempotent (angle : ℝ) : representative (representative angle) = representative angle

/-- **Normalizing** finds the one representative. -/
theorem represents_normalize {half : ℝ} (h : 0 < half) :
    Represents half (normalize (α := Circular half)) := by
  have hnormalize : (normalize (α := Circular half) : ℝ → ℝ) = toIocMod (two_mul_pos h) (-half) :=
    funext (normalize_circular h)
  have htop : -half + 2 * half = half := by ring
  rw [hnormalize]
  refine ⟨fun angle r => ?_, fun angle => toIocMod_toIocMod _ _ _ _⟩
  rw [eq_comm, toIocMod_eq_iff, htop]
  refine and_congr_right fun _ => ⟨?_, ?_⟩
  · rintro ⟨n, rfl⟩
    refine ⟨-n, ?_⟩
    rw [zsmul_eq_mul]
    push_cast
    ring
  · rintro ⟨n, rfl⟩
    refine ⟨-n, ?_⟩
    rw [zsmul_eq_mul]
    push_cast
    ring

/-- **Angles are represented as they should be**, whatever number stands for half a circle. The
angle between two headings is folded by half circles, or by whole ones if the front is told from the
back, and normalizing finds the one representative. -/
theorem representatives_ok {half : ℝ} (h : 0 < half) :
    Folds half (fun a b => difference (α := Circular half) a b false) ∧
    Folds (2 * half) (fun a b => difference (α := Circular half) a b true) ∧
    Represents half (normalize (α := Circular half)) := by
  have hquarter : half / 2.0 = half / 2 := by norm_num
  refine ⟨?_, ?_, represents_normalize h⟩
  · have hfold := folds_wrap (half_pos h)
    rw [mul_div_cancel₀ _ two_ne_zero, ← hquarter] at hfold
    exact hfold
  · exact folds_wrap h

/-- In degrees, it is twenty from 350 on to 10. -/
theorem representatives_ok_degrees :
    (0 : ℝ) < 180 ∧ @Eq ℝ (difference (α := Circular 180) (10 : ℝ) (350 : ℝ) true) 20 := by
  have h : (0 : ℝ) < 180 := by norm_num
  obtain ⟨-, hfold, -⟩ := representatives_ok h
  obtain ⟨n, hn⟩ := hfold.congruent 10 350
  have hmem := hfold.mem 10 350
  rw [hn] at hmem
  have hup : (0 : ℝ) < n := by linarith [hmem.1]
  have hdown : (n : ℝ) < 2 := by linarith [hmem.2]
  have hone : n = 1 := by
    have hup' : 0 < n := by exact_mod_cast hup
    have hdown' : n < 2 := by exact_mod_cast hdown
    omega
  refine ⟨h, hn.trans ?_⟩
  rw [hone]
  norm_num

end Angle

end TrackFusion
