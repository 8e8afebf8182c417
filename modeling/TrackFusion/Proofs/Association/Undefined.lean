import Mathlib
import TrackFusion.Proofs.Association.Answers
import TrackFusion.Proofs.Doubles
import TrackFusion.Proofs.Extended

/-!
# Scores that are infinite or undefined

Scores need not be numbers. Some pairing is always found, but not all of its pairs are matches: the
optimal solver takes a score that is not finite for none when it counts costs, and tests afterwards
only that the score is not too low, which an undefined one and an infinite one pass.

* `assign_inverse`: **the two maps of a pairing are always inverse to each other.**
* `IsMatch`, `OnlyMatches`: pairs that are meant to be chosen.
* `Stray`: the scores that pass the test without being matches.
* `assign_onlyMatches_iff`: **only matches are chosen, unless the optimal solver takes a stray
  score.**
-/

namespace TrackFusion

variable {m n : ℕ}

theorem Pairing.Shows.unique {p : Pairing} {s t : Finset (Fin m × Fin n)} (hs : p.Shows s)
    (ht : p.Shows t) : s = t := by
  have hmem : ∀ {s : Finset (Fin m × Fin n)}, p.Shows s →
      ∀ q, q ∈ s ↔ p.direct.get? q.1 = some q.2.val := by
    intro s hs q
    rw [hs.direct]
    constructor
    · exact fun hq => ⟨q, hq, rfl, rfl⟩
    · rintro ⟨q', hq', hi, hj⟩
      rwa [← show q' = q from Prod.ext (Fin.ext hi) (Fin.ext hj)]
  ext q
  rw [hmem hs, hmem ht]

namespace Association

/-! ### The two maps -/

section extended

variable {α : Type} [ExactScalar α]

/-- Costs are finite in a table of any size. -/
theorem isFinite_costs_extended (score : Mat m n (Extended α)) (i : Fin m) (j : Fin n) :
    Scalar.isFinite (costs score i j) = true := by
  have hrows : Nat.max m 1 ≠ 0 := Nat.pos_iff_ne_zero.1 (Nat.le_max_right m 1)
  have hs : ∃ x : α,
      (if Scalar.isFinite (score i j) = true then score i j else 0) = .number x := by
    split
    · next h => exact Extended.isFinite_iff.1 h
    · exact ⟨0, rfl⟩
  obtain ⟨x, hx⟩ := hs
  simp only [costs, Mat.ofFn_apply, hx]
  generalize Nat.max m 1 = rows at hrows
  have hrows : (rows : α) ≠ 0 := Nat.cast_ne_zero.2 hrows
  simp [tieBreakTotal, Extended.number_div _ (mul_ne_zero hrows hrows)]

/-- **A pairing is always found, and its maps are inverse to each other.** They stay within the
table. The scores are any numbers, infinite ones included, or undefined. -/
theorem assign_inverse (solver : Solver) (score : Mat m n (Extended α)) :
    ∃ p, assign solver score = .ok p ∧
      (∀ i j, p.direct.get? i = some j → i < m ∧ j < n) ∧
      (∀ i j, p.reverse.get? j = some i → i < m ∧ j < n) ∧
      ∀ i j, p.direct.get? i = some j ↔ p.reverse.get? j = some i := by
  obtain ⟨p, hp⟩ := assign_ok solver (isFinite_costs_extended score)
  obtain ⟨s, -, hs⟩ := assign_shows hp
  refine ⟨p, hp, fun i j h => ?_, fun i j h => ?_, fun i j => ?_⟩
  · obtain ⟨q, -, rfl, rfl⟩ := (hs.direct i j).1 h
    exact ⟨q.1.isLt, q.2.isLt⟩
  · obtain ⟨q, -, rfl, rfl⟩ := (hs.reverse i j).1 h
    exact ⟨q.1.isLt, q.2.isLt⟩
  · rw [hs.direct, hs.reverse]

end extended

/-! ### Matches -/

section scores

variable {α : Type} [Scalar α]

/-- A score that makes a match. -/
def IsMatch (s : α) : Prop := Scalar.isFinite s = true ∧ minScore ≤ s

/-- All pairs of a pairing are matches. -/
def OnlyMatches (score : Mat m n α) (p : Pairing) : Prop :=
  ∃ s : Finset (Fin m × Fin n), p.Shows s ∧ ∀ q ∈ s, IsMatch (score q.1 q.2)

/-- A score that is no match, although it is not too low: it is undefined, or infinite. -/
def Stray (s : α) : Prop := Scalar.isNaN s = true ∨ Scalar.isFinite s = false ∧ minScore ≤ s

/-- The greedy solver looks at matches only. -/
theorem isMatch_of_bestFirst {score : Mat m n α} {i : Fin m} {j : Fin n}
    (h : (bestFirst score minScore).column i = some j) : IsMatch (score i j) :=
  admissible_of_bestFirst h

variable [OrderedScalar α] {score : Mat m n α}

/-- What is not too low is a match or stray. -/
theorem isMatch_iff_not_stray (hmin : Scalar.isNaN (minScore : α) = false) {s : α}
    (h : ¬ s < minScore) : IsMatch s ↔ ¬ Stray s := by
  rw [IsMatch, Stray]
  cases hnan : Scalar.isNaN s with
  | true =>
    have hle : ¬ minScore ≤ s := by
      intro hle
      rw [(OrderedScalar.isNaN_of_le hle).2] at hnan
      cases hnan
    simp [hle]
  | false =>
    have hle := OrderedScalar.le_of_not_lt hnan hmin h
    simp [hle]

theorem Stray.not_lt {s : α} (h : Stray s) : ¬ s < minScore := by
  intro hlt
  have hle := OrderedScalar.le_of_lt hlt
  rcases h with hnan | ⟨-, hge⟩
  · rw [(OrderedScalar.isNaN_of_le hle).1] at hnan
    cases hnan
  · exact OrderedScalar.not_lt_of_le hge hlt

/-- The pairs of an assignment are matches, but for the stray ones. -/
theorem pairing_onlyMatches_iff (hmin : Scalar.isNaN (minScore : α) = false)
    {a : Assignment m n α} (hone : OneToOne a.column) :
    OnlyMatches score (pairing score a) ↔ ∀ i j, a.column i = some j → ¬ Stray (score i j) := by
  have hshows := pairing_shows score hone
  constructor
  · rintro ⟨s, hs, hmatch⟩ i j hij hstray
    have hkept : (i, j) ∈ kept score a := (mem_kept score a _).2 ⟨hij, hstray.not_lt⟩
    have hij' := hmatch (i, j) (hs.unique hshows ▸ hkept)
    exact (isMatch_iff_not_stray hmin hstray.not_lt).1 hij' hstray
  · intro h
    refine ⟨_, hshows, fun q hq => ?_⟩
    obtain ⟨hcol, hlt⟩ := (mem_kept score a q).1 hq
    exact (isMatch_iff_not_stray hmin hlt).2 (h _ _ hcol)

end scores

/-! ### Doubles -/

theorem isNaN_minScore : Scalar.isNaN (minScore : Float) = false := by decide +kernel

/-- **Only matches are chosen, unless the optimal solver takes a stray score.** The greedy solver
never does. -/
theorem assign_onlyMatches_iff {solver : Solver} {score : Mat m n Float} {p : Pairing}
    (h : assign solver score = .ok p) :
    OnlyMatches score p ↔
      solver = .greedy ∨ ∀ a, minimalCost (costs score) = .ok a →
        ∀ i j, a.column i = some j → ¬ Stray (score i j) := by
  cases solver with
  | greedy =>
    cases h
    have hone := bestFirst_oneToOne score minScore
    refine iff_of_true ⟨_, pairing_shows score hone, fun q hq => ?_⟩ (.inl rfl)
    exact isMatch_of_bestFirst ((mem_kept score _ q).1 hq).1
  | optimal =>
    obtain ⟨a, ha, rfl⟩ := minimalCost_of_assign h
    rw [pairing_onlyMatches_iff isNaN_minScore (minimalCost_oneToOne ha), ha]
    simp

/-- The first track fits the second detection; the second one fits the first, if at all. -/
def halfUndefined (s : Float) : Mat 2 2 Float :=
  .ofRows #v[#v[Binary64.nan, 0.5], #v[s, Binary64.nan]]

theorem assign_onlyMatches_iff_two :
    assign .optimal (halfUndefined 0.25) = .ok ⟨⟨[(1, 0), (0, 1)]⟩, ⟨[(0, 1), (1, 0)]⟩⟩ ∧
      OnlyMatches (halfUndefined 0.25) ⟨⟨[(1, 0), (0, 1)]⟩, ⟨[(0, 1), (1, 0)]⟩⟩ := by
  have h : assign .optimal (halfUndefined 0.25) =
      .ok ⟨⟨[(1, 0), (0, 1)]⟩, ⟨[(0, 1), (1, 0)]⟩⟩ := by decide +kernel
  refine ⟨h, (assign_onlyMatches_iff h).2 (.inr fun a ha i j hij => ?_)⟩
  have hcolumns : (minimalCost (costs (halfUndefined 0.25))).map
      (fun a => (a.column 0, a.column 1)) = .ok (some 1, some 0) := by decide +kernel
  rw [ha, Except.map, Except.ok.injEq, Prod.mk.injEq] at hcolumns
  have hchosen : (i = 0 ∧ j = 1) ∨ (i = 1 ∧ j = 0) := by
    fin_cases i
    · exact .inl ⟨rfl, Option.some.inj (hij.symm.trans hcolumns.1)⟩
    · exact .inr ⟨rfl, Option.some.inj (hij.symm.trans hcolumns.2)⟩
  rcases hchosen with ⟨rfl, rfl⟩ | ⟨rfl, rfl⟩ <;> (rw [Stray]; decide +kernel)

/-- With no score at all, the second track is given a detection all the same. -/
theorem not_onlyMatches_two :
    ∃ p, assign .optimal (halfUndefined Binary64.nan) = .ok p ∧
      ¬ OnlyMatches (halfUndefined Binary64.nan) p := by
  refine ⟨⟨⟨[(1, 0), (0, 1)]⟩, ⟨[(0, 1), (1, 0)]⟩⟩, by decide +kernel, ?_⟩
  rintro ⟨s, hs, hmatch⟩
  obtain ⟨q, hq, hi, hj⟩ := (hs.direct 1 0).1 (by decide)
  obtain ⟨hfinite, -⟩ := hmatch q hq
  rw [show q.1 = 1 from Fin.ext hi, show q.2 = 0 from Fin.ext hj] at hfinite
  revert hfinite
  decide +kernel

end Association

end TrackFusion
