import TrackFusion.Proofs.Magnitudes

/-!
# Signs of differences

A number less another one that is not less has no positive difference, rounded or not. So clocks can
be compared by the time that has passed between them.

* `SignedScalar`: scalars whose differences have the right sign, in both directions.
* `SignedScalar.le_of_sub_pos`: what a positive difference tells.
-/

namespace TrackFusion

/-- Scalars whose differences have the right sign. -/
class SignedScalar (α : Type) [Scalar α] : Prop extends RoundedScalar α where
  not_sub_pos {a b : α} : a ≤ b → ¬ 0 < a - b
  isNaN_of_isFinite {a : α} : Scalar.isFinite a = true → Scalar.isNaN a = false

instance {α : Type} [ExactScalar α] : SignedScalar α where
  not_sub_pos h := not_lt.2 (sub_nonpos.2 h)
  isNaN_of_isFinite _ := ExactScalar.isNaN_eq _

namespace SignedScalar

variable {α : Type} [Scalar α] [SignedScalar α] {a b : α}

/-- What has a positive difference to a number is not less than it. -/
theorem le_of_sub_pos (ha : Scalar.isNaN a = false) (hb : Scalar.isNaN b = false)
    (h : 0 < b - a) : a ≤ b :=
  (OrderedScalar.le_or_le ha hb).resolve_right fun hba => not_sub_pos hba h

end SignedScalar

namespace Binary64

open Float.Model (Format UnpackedFloat)
open Float.Model.UnpackedFloat

theorem nonneg_neg_round (m : ℕ) (e : ℤ) :
    Nonneg (UnpackedFloat.round Format.binary64 .negative m e).neg := by
  simp only [UnpackedFloat.round, roundWithAccuracy]
  split
  · trivial
  · rfl

theorem nonneg_neg_normalize {m : ℤ} (hm : m ≤ 0) (g : ℤ) (s : Sign) :
    Nonneg (UnpackedFloat.normalize Format.binary64 m g s).neg := by
  rw [UnpackedFloat.normalize]
  split
  · exact nonneg_neg_round _ _
  · trivial
  · rename_i h
    exact absurd (compare_gt_iff_gt.1 h) hm.not_gt

/-- Rounding keeps the sign of a difference in the other direction, too. -/
theorem nonneg_neg_sub {a b : UnpackedFloat} (ha : Canonical a) (hb : Canonical b)
    (hle : level a ≤ level b) : Nonneg (UnpackedFloat.sub Format.binary64 a b).neg := by
  have hother := nonneg_sub ha hb hle
  -- unless both are finite, one of the two tells the sign in either direction
  cases a with
  | notANumber => trivial
  | infinity s =>
    cases b with
    | notANumber => trivial
    | infinity s' => cases s <;> cases s' <;> trivial
    | zero s' => cases s <;> first | rfl | cases hother
    | finite s' m' e' h' => cases s <;> first | rfl | cases hother
  | zero s =>
    cases b with
    | notANumber => trivial
    | infinity s' => cases s' <;> first | rfl | cases hother
    | zero s' => cases s <;> cases s' <;> exact trivial
    | finite s' m' e' h' => cases s' <;> first | rfl | cases hother
  | finite s m e h =>
    cases b with
    | notANumber => trivial
    | infinity s' => cases s' <;> first | rfl | cases hother
    | zero s' => cases s <;> first | rfl | cases hother
    | finite s' m' e' h' =>
      refine nonneg_neg_normalize ?_ _ _
      simp only [Nat.shiftLeft_eq]
      exact sub_nonpos.2 (apply_le ha hb (min_le_left e e') (min_le_right e e') hle)

theorem level_pack_neg {u : UnpackedFloat} (h : Nonneg u.neg) :
    level (unpack Format.binary64 (pack Format.binary64 u)) ≤ 0 := by
  have hbits (e : BitVec 11) (f : BitVec 52) :
      2 ^ 63 ≤ (packComponents Format.binary64 .negative e f).toNat := by
    rw [toNat_packComponents, Sign.toBitVec]
    show 2 ^ 63 ≤ (1 * 2 ^ 11 + e.toNat) * 2 ^ 52 + f.toNat
    omega
  cases u with
  | notANumber => decide
  | infinity s =>
    cases s with
    | positive => cases h
    | negative => decide
  | zero s => cases s <;> decide
  | finite s m e hm =>
    cases s with
    | positive => cases h
    | negative =>
      have hnan := isNaN_unpack_pack (.finite .negative m e hm)
      have hlow : 2 ^ 63 ≤ (pack Format.binary64 (.finite .negative m e hm)).toNat := by
        simp only [pack]
        split
        · exact hbits _ _
        · split
          · exact hbits _ _
          · exact hbits _ _
      rw [(fields_unpack _).level_eq hnan, if_neg (not_lt.2 hlow)]
      omega

theorem not_sub_pos {a b : Float} (h : a ≤ b) : ¬ 0.0 < a - b := by
  intro hpos
  obtain ⟨ha, hb, hle⟩ := le_iff_place.1 h
  obtain ⟨-, hnan, hlt⟩ := lt_iff_place.1 hpos
  have hfa := fields_unpack a.toBits.toBitVec
  have hfb := fields_unpack b.toBits.toBitVec
  have hlevel : level a.toModel.unpack ≤ level b.toModel.unpack := by
    rw [show level a.toModel.unpack = place a from hfa.level_eq ha,
      show level b.toModel.unpack = place b from hfb.level_eq hb]
    exact hle
  have hsub : level (a - b).toModel.unpack ≤ 0 :=
    level_pack_neg (nonneg_neg_sub hfa.canonical hfb.canonical hlevel)
  rw [show level (a - b).toModel.unpack = place (a - b) from
    (fields_unpack (a - b).toBits.toBitVec).level_eq hnan] at hsub
  exact absurd hlt (not_lt.2 hsub)

end Binary64

instance : SignedScalar Float where
  not_sub_pos := Binary64.not_sub_pos
  isNaN_of_isFinite := by
    intro a h
    have hfin : a.toModel.unpack.isFinite = true := h
    show a.toModel.unpack.isNaN = false
    cases hu : a.toModel.unpack with
    | notANumber =>
      rw [hu] at hfin
      cases hfin
    | _ => rfl

end TrackFusion
