import TrackFusion.Proofs.Shares

/-!
# The two zeros of doubles

Zeros with different signs compare as equal, and nothing but the sign of a zero that is computed
tells them apart: sums, differences and products of doubles that compare as equal do so, too.

* `Binary64.Same`: doubles that differ at most in the sign of a zero.
* `Binary64.Same.add`, `Same.sub`, `Same.mul`, `Same.le_iff`: what is computed of them.
* `Binary64.same_of_beq`: what compares as equal.
* `Binary64.plain`: a double without the sign of a zero.
-/

namespace TrackFusion

namespace Binary64

open Float.Model (Format UnpackedFloat)
open Float.Model.UnpackedFloat

/-! ### Unpacked numbers -/

/-- The same number, or two zeros. -/
def Alike (a b : UnpackedFloat) : Prop := a = b ∨ ∃ s s', a = .zero s ∧ b = .zero s'

namespace Alike

variable {a a' b b' : UnpackedFloat}

theorem refl (a : UnpackedFloat) : Alike a a := .inl rfl

theorem zeros (s s' : Sign) : Alike (.zero s) (.zero s') := .inr ⟨s, s', rfl, rfl⟩

theorem trans {c : UnpackedFloat} (h : Alike a b) (h' : Alike b c) : Alike a c := by
  rcases h with rfl | ⟨s, s', rfl, rfl⟩
  · exact h'
  · rcases h' with rfl | ⟨s₁, s₂, -, rfl⟩
    · exact zeros s s'
    · exact zeros s s₂

theorem isNaN_eq (h : Alike a b) : a.isNaN = b.isNaN := by
  rcases h with rfl | ⟨s, s', rfl, rfl⟩ <;> rfl

theorem level_eq (h : Alike a b) : level a = level b := by
  rcases h with rfl | ⟨s, s', rfl, rfl⟩ <;> rfl

theorem abs_eq (h : Alike a b) : a.abs = b.abs := by
  rcases h with rfl | ⟨s, s', rfl, rfl⟩ <;> rfl

/-- A zero counts the same on the right of a sum, whatever its sign. -/
theorem add_zero (a : UnpackedFloat) (s s' : Sign) :
    Alike (UnpackedFloat.add Format.binary64 a (.zero s))
      (UnpackedFloat.add Format.binary64 a (.zero s')) := by
  cases a with
  | zero s₁ => cases s₁ <;> cases s <;> cases s' <;> exact zeros _ _
  | _ => exact refl _

theorem zero_add (a : UnpackedFloat) (s s' : Sign) :
    Alike (UnpackedFloat.add Format.binary64 (.zero s) a)
      (UnpackedFloat.add Format.binary64 (.zero s') a) := by
  cases a with
  | zero s₁ => cases s₁ <;> cases s <;> cases s' <;> exact zeros _ _
  | _ => exact refl _

theorem sub_zero (a : UnpackedFloat) (s s' : Sign) :
    Alike (UnpackedFloat.sub Format.binary64 a (.zero s))
      (UnpackedFloat.sub Format.binary64 a (.zero s')) := by
  cases a with
  | zero s₁ => cases s₁ <;> cases s <;> cases s' <;> exact zeros _ _
  | _ => exact refl _

theorem zero_sub (a : UnpackedFloat) (s s' : Sign) :
    Alike (UnpackedFloat.sub Format.binary64 (.zero s) a)
      (UnpackedFloat.sub Format.binary64 (.zero s') a) := by
  cases a with
  | zero s₁ => cases s₁ <;> cases s <;> cases s' <;> exact zeros _ _
  | _ => exact refl _

theorem mul_zero (a : UnpackedFloat) (s s' : Sign) :
    Alike (UnpackedFloat.mul Format.binary64 a (.zero s))
      (UnpackedFloat.mul Format.binary64 a (.zero s')) := by
  cases a with
  | zero s₁ => exact zeros _ _
  | finite s₁ m e h => exact zeros _ _
  | _ => exact refl _

theorem zero_mul (a : UnpackedFloat) (s s' : Sign) :
    Alike (UnpackedFloat.mul Format.binary64 (.zero s) a)
      (UnpackedFloat.mul Format.binary64 (.zero s') a) := by
  cases a with
  | zero s₁ => exact zeros _ _
  | finite s₁ m e h => exact zeros _ _
  | _ => exact refl _

/-- What the signs of zeros do not matter to on either side, they do not matter to. -/
theorem congr {op : UnpackedFloat → UnpackedFloat → UnpackedFloat}
    (hleft : ∀ a s s', Alike (op (.zero s) a) (op (.zero s') a))
    (hright : ∀ a s s', Alike (op a (.zero s)) (op a (.zero s'))) (h : Alike a b)
    (h' : Alike a' b') : Alike (op a a') (op b b') := by
  have hfirst : Alike (op a a') (op b a') := by
    rcases h with rfl | ⟨s, s', rfl, rfl⟩
    · exact refl _
    · exact hleft a' s s'
  have hsecond : Alike (op b a') (op b b') := by
    rcases h' with rfl | ⟨s, s', rfl, rfl⟩
    · exact refl _
    · exact hright b s s'
  exact hfirst.trans hsecond

end Alike

/-! ### Doubles -/

/-- The same double, or two zeros. -/
def Same (x y : Float) : Prop :=
  x = y ∨ ∃ s s', x.toModel.unpack = .zero s ∧ y.toModel.unpack = .zero s'

theorem Alike.pack {a b : UnpackedFloat} (h : Alike a b) :
    Same (.ofModel (Float.Model.pack a)) (.ofModel (Float.Model.pack b)) := by
  rcases h with rfl | ⟨s, s', rfl, rfl⟩
  · exact .inl rfl
  · exact .inr ⟨s, s', by cases s <;> rfl, by cases s' <;> rfl⟩

namespace Same

variable {x x' y y' : Float}

theorem alike (h : Same x y) : Alike x.toModel.unpack y.toModel.unpack := by
  rcases h with rfl | h
  · exact .refl _
  · exact .inr h

theorem refl (x : Float) : Same x x := .inl rfl

theorem add (h : Same x y) (h' : Same x' y') : Same (x + x') (y + y') :=
  (Alike.congr Alike.zero_add Alike.add_zero h.alike h'.alike).pack

theorem sub (h : Same x y) (h' : Same x' y') : Same (x - x') (y - y') :=
  (Alike.congr Alike.zero_sub Alike.sub_zero h.alike h'.alike).pack

theorem mul (h : Same x y) (h' : Same x' y') : Same (x * x') (y * y') :=
  (Alike.congr Alike.zero_mul Alike.mul_zero h.alike h'.alike).pack

/-- Magnitudes have no sign. -/
theorem abs_eq (h : Same x y) : x.abs = y.abs :=
  congrArg (fun a => Float.ofModel (Float.Model.pack a)) h.alike.abs_eq

theorem isNaN_eq (h : Same x y) : x.isNaN = y.isNaN := h.alike.isNaN_eq

theorem le_iff (h : Same x y) (h' : Same x' y') : x ≤ x' ↔ y ≤ y' := by
  rw [le_iff_level, le_iff_level, h.isNaN_eq, h'.isNaN_eq, h.alike.level_eq, h'.alike.level_eq]

end Same

/-! ### What compares as equal -/

theorem beq_iff_place {x y : Float} :
    (x == y) = true ↔ x.isNaN = false ∧ y.isNaN = false ∧ place x = place y := by
  have hbeq : (x == y) = true ↔ (x.toModel.unpack.compare y.toModel.unpack == some .eq) = true :=
    Iff.rfl
  rw [hbeq]
  by_cases hx : x.isNaN = false
  · by_cases hy : y.isNaN = false
    · rw [compare_place hx hy, beq_iff_eq, Option.some_inj, compare_eq_iff_eq]
      exact ⟨fun h => ⟨hx, hy, h⟩, fun h => h.2.2⟩
    · rw [compare_eq_none (.inr (Bool.eq_true_of_not_eq_false hy))]
      exact ⟨nofun, fun h => absurd h.2.1 hy⟩
  · rw [compare_eq_none (.inl (Bool.eq_true_of_not_eq_false hx))]
    exact ⟨nofun, fun h => absurd h.1 hx⟩

theorem eq_of_toBits {x y : Float} (h : x.toBits = y.toBits) : x = y := by
  obtain ⟨⟨bits, hbits⟩⟩ := x
  obtain ⟨⟨bits', hbits'⟩⟩ := y
  obtain rfl : bits = bits' := h
  rfl

theorem eq_of_rank {x y : Float} (h : rank x = rank y) : x = y := by
  have hpow : Nat.pow 2 63 = 2 ^ 63 := rfl
  have hx := x.toBits.toNat_lt
  have hy := y.toBits.toNat_lt
  refine eq_of_toBits (UInt64.toNat_inj.1 ?_)
  simp only [rank, hpow] at h
  split at h <;> split at h <;> omega

/-- The total order tells all doubles apart. -/
theorem eq_of_order (x y : Float) (h : Scalar.order x y = .eq) : x = y :=
  eq_of_rank (compare_eq_iff_eq.1 h)

/-- Doubles that have the same place are the same, but for the sign of a zero. -/
theorem same_of_place {x y : Float} (h : place x = place y) : Same x y := by
  have hzero {z : Float} (hz : z.toBits.toNat = 0 ∨ z.toBits.toNat = 2 ^ 63) :
      ∃ s, z.toModel.unpack = .zero s := by
    rcases hz with hz | hz
    · obtain rfl : z = 0.0 := eq_of_toBits (UInt64.toNat_inj.1 hz)
      exact ⟨.positive, rfl⟩
    · obtain rfl : z = -0.0 := eq_of_toBits (UInt64.toNat_inj.1 hz)
      exact ⟨.negative, rfl⟩
  -- with other bits, the same place is that of the zeros
  by_cases hbits : x.toBits.toNat = y.toBits.toNat
  · exact .inl (eq_of_toBits (UInt64.toNat_inj.1 hbits))
  · have hboth : (x.toBits.toNat = 0 ∨ x.toBits.toNat = 2 ^ 63) ∧
        (y.toBits.toNat = 0 ∨ y.toBits.toNat = 2 ^ 63) := by
      simp only [place] at h
      split at h <;> split at h <;> omega
    obtain ⟨s, hs⟩ := hzero hboth.1
    obtain ⟨s', hs'⟩ := hzero hboth.2
    exact .inr ⟨s, s', hs, hs'⟩

theorem same_of_beq {x y : Float} (h : (x == y) = true) : Same x y :=
  same_of_place (beq_iff_place.1 h).2.2

theorem Same.place_eq {x y : Float} (h : Same x y) : place x = place y := by
  rcases h with rfl | ⟨s, s', hs, hs'⟩
  · rfl
  · have hplace {z : Float} {s : Sign} (hz : z.toModel.unpack = .zero s) : place z = 0 := by
      have hnan : z.isNaN = false := congrArg UnpackedFloat.isNaN hz
      rw [← level_toModel hnan, hz]
      rfl
    rw [hplace hs, hplace hs']

theorem Same.beq {x x' y y' : Float} (h : Same x y) (h' : Same x' y') : (x == x') = (y == y') := by
  rw [Bool.eq_iff_iff, beq_iff_place, beq_iff_place, h.isNaN_eq, h'.isNaN_eq, h.place_eq,
    h'.place_eq]

/-! ### Without the sign of a zero -/

/-- A double, without the sign of a zero. -/
def plain (x : Float) : Float := if x == 0.0 then 0.0 else x

theorem same_plain (x : Float) : Same x (plain x) := by
  rw [plain]
  split
  · exact same_of_beq ‹_›
  · exact .refl x

theorem plain_eq_plain {x y : Float} (h : Same x y) : plain x = plain y := by
  rw [plain, plain, h.beq (.refl 0.0)]
  split
  · rfl
  · rename_i hzero
    rcases h with rfl | ⟨s, s', hs, hs'⟩
    · rfl
    · refine absurd ?_ hzero
      show (y.toModel.unpack.compare (0.0 : Float).toModel.unpack == some .eq) = true
      rw [hs']
      rfl

theorem beq_iff_plain {x y : Float} (hy : y.isNaN = false) :
    (x == y) = true ↔ plain x = plain y := by
  refine ⟨fun h => plain_eq_plain (same_of_beq h), fun h => ?_⟩
  rw [(same_plain x).beq (same_plain y), h, ← (same_plain y).beq (same_plain y)]
  exact beq_iff_place.2 ⟨hy, hy, rfl⟩

/-- In the total order there is one of the zeros now, at its place. -/
theorem rank_plain (x : Float) :
    rank (plain x) = if place x < 0 then place x - 1 else place x := by
  have hpow : Nat.pow 2 63 = 2 ^ 63 := rfl
  by_cases hzero : (x == 0.0) = true
  · have hplace : place x = 0 := (same_of_beq hzero).place_eq
    rw [plain, if_pos hzero, hplace]
    rfl
  · have hbits : x.toBits.toNat ≠ 2 ^ 63 := by
      intro hbits
      obtain rfl : x = -0.0 := eq_of_toBits (UInt64.toNat_inj.1 hbits)
      exact hzero (by decide)
    rw [plain, if_neg hzero]
    simp only [rank, place, hpow]
    split <;> split <;> omega

end Binary64

end TrackFusion
