import TrackFusion.Proofs.Association.Optimal

/-!
# The total score of the optimal association

The optimal association minimises costs, which also break ties between tracks. Its total score is
the greatest there is, up to what all tie breaks together can make up.

* `Graded`: the tables that scores come in.
* `total_costs`: the cost of some pairs, by their scores and their tracks.
* `total_kept`: the pairs that are dropped score zero.
* `assign_optimal_total`: no matching scores more, but for `tieBreakTotal`.
-/

namespace TrackFusion.Association

variable {α : Type} [ExactScalar α] {m n : ℕ}

/-- Scores are zero, for a pair that fails a gate, or between the lowest one that counts and one. -/
def Graded (score : Mat m n α) : Prop :=
  ∀ i j, score i j = 0 ∨ minScore ≤ score i j ∧ score i j ≤ 1

instance (score : Mat m n α) : Decidable (Graded score) :=
  inferInstanceAs (Decidable (∀ i j, score i j = 0 ∨ minScore ≤ score i j ∧ score i j ≤ 1))

theorem minScore_pos : (0 : α) < minScore := by
  simp only [minScore, ExactScalar.ofScientific_eq]
  norm_num

theorem tieBreakTotal_pos : (0 : α) < tieBreakTotal := by
  simp only [tieBreakTotal, ExactScalar.ofScientific_eq]
  norm_num

theorem Graded.nonneg {score : Mat m n α} (h : Graded score) (i : Fin m) (j : Fin n) :
    0 ≤ score i j := by
  rcases h i j with h0 | ⟨h1, -⟩
  · exact h0.ge
  · exact minScore_pos.le.trans h1

theorem Graded.eq_zero {score : Mat m n α} (h : Graded score) {i : Fin m} {j : Fin n}
    (hlt : score i j < minScore) : score i j = 0 := by
  rcases h i j with h0 | ⟨h1, -⟩
  · exact h0
  · exact absurd hlt (not_lt.2 h1)

/-! ### Costs -/

/-- What a track is charged more than the one before it. -/
def tieStep (α : Type) [ExactScalar α] (m : ℕ) : α :=
  tieBreakTotal / (((Nat.max m 1 : ℕ) : α) * ((Nat.max m 1 : ℕ) : α))

theorem costs_apply (score : Mat m n α) (i : Fin m) (j : Fin n) :
    costs score i j = 1 - score i j + (i.val : α) * tieStep α m := by
  simp [costs, tieStep]

theorem tieStep_pos : 0 < tieStep α m := by
  have : (0 : α) < ((Nat.max m 1 : ℕ) : α) := Nat.cast_pos.2 (Nat.le_max_right m 1)
  exact div_pos tieBreakTotal_pos (mul_pos this this)

theorem total_costs (score : Mat m n α) (s : Finset (Fin m × Fin n)) :
    total (costs score) s =
      s.card - total score s + (∑ q ∈ s, (q.1.val : α)) * tieStep α m := by
  simp only [total, costs_apply, Finset.sum_add_distrib, Finset.sum_sub_distrib, Finset.sum_mul]
  simp

/-- What the tracks of a matching are charged to break ties. -/
theorem tieBreak_le {s : Finset (Fin m × Fin n)} (hs : IsMatching s) :
    (∑ q ∈ s, (q.1.val : α)) * tieStep α m ≤ tieBreakTotal := by
  have hcard : s.card ≤ m := by
    simpa using Finset.card_le_card_of_injOn Prod.fst (fun _ _ => Finset.mem_univ _) hs.row
  have hsum : ∑ q ∈ s, q.1.val ≤ Nat.max m 1 * Nat.max m 1 := by
    have hm : m ≤ Nat.max m 1 := Nat.le_max_left m 1
    calc ∑ q ∈ s, q.1.val ≤ ∑ _q ∈ s, m := Finset.sum_le_sum fun q _ => q.1.isLt.le
      _ = s.card * m := by simp
      _ ≤ Nat.max m 1 * Nat.max m 1 := Nat.mul_le_mul (hcard.trans hm) hm
  have hsum' : ∑ q ∈ s, (q.1.val : α) ≤ ((Nat.max m 1 : ℕ) : α) * ((Nat.max m 1 : ℕ) : α) := by
    exact_mod_cast hsum
  have hpos : (0 : α) < ((Nat.max m 1 : ℕ) : α) := Nat.cast_pos.2 (Nat.le_max_right m 1)
  calc (∑ q ∈ s, (q.1.val : α)) * tieStep α m
      ≤ ((Nat.max m 1 : ℕ) : α) * ((Nat.max m 1 : ℕ) : α) * tieStep α m :=
        mul_le_mul_of_nonneg_right hsum' tieStep_pos.le
    _ = tieBreakTotal := mul_div_cancel₀ _ (mul_pos hpos hpos).ne'

/-! ### The pairs that are chosen -/

theorem oneToOne_of_tableCells {α : Type} {a : Assignment m n α}
    {π : Equiv.Perm (Fin (Nat.max m n))}
    (hπ : ∀ i j, a.column i = some j ↔ (i, j) ∈ tableCells π) : OneToOne a.column := by
  intro j i i' h h'
  exact congrArg Prod.fst
    ((tableCells_isMatching π).col _ ((hπ i j).1 h) _ ((hπ i' j).1 h') rfl)

theorem total_kept {score : Mat m n α} (h : Graded score) {a : Assignment m n α}
    {π : Equiv.Perm (Fin (Nat.max m n))}
    (hπ : ∀ i j, a.column i = some j ↔ (i, j) ∈ tableCells π) :
    total score (kept score a) = total score (tableCells π) := by
  refine Finset.sum_subset ?_ ?_
  · intro q hq
    exact (hπ q.1 q.2).1 ((mem_kept score a q).1 hq).1
  · intro q hq hq'
    refine h.eq_zero ?_
    by_contra hge
    exact hq' ((mem_kept score a q).2 ⟨(hπ q.1 q.2).2 hq, hge⟩)

/-- **The optimal association scores best**, up to the tie break: it always has an answer, that is a
matching, and no matching scores more by more than `tieBreakTotal`. -/
theorem assign_optimal_total (score : Mat m n α) (h : Graded score) :
    ∃ p s, assign .optimal score = .ok p ∧ p.Shows s ∧ IsMatching s ∧
      ∀ t : Finset (Fin m × Fin n), IsMatching t →
        total score t - tieBreakTotal ≤ total score s := by
  obtain ⟨a, ha, π, hπ, hmin⟩ := minimalCost_optimal (costs score)
  have hone := oneToOne_of_tableCells hπ
  refine ⟨pairing score a, kept score a, by rw [assign, ha]; rfl, pairing_shows score hone,
    kept_isMatching score hone, fun t ht => ?_⟩
  obtain ⟨σ, hσ⟩ := exists_subset_tableCells ht
  -- filling a matching up does not lower its score
  have hsub : total score t ≤ total score (tableCells σ) :=
    Finset.sum_le_sum_of_subset_of_nonneg hσ fun q _ _ => h.nonneg q.1 q.2
  have hcost := hmin σ
  rw [total_costs, total_costs, card_tableCells, card_tableCells] at hcost
  -- both choices have as many cells, so their costs differ by their scores and tie breaks
  have hbias := tieBreak_le (α := α) (tableCells_isMatching σ)
  have hbias' : 0 ≤ (∑ q ∈ tableCells π, (q.1.val : α)) * tieStep α m :=
    mul_nonneg (Finset.sum_nonneg fun _ _ => Nat.cast_nonneg _) tieStep_pos.le
  rw [total_kept h hπ]
  linarith

/-- Three tracks of which the first two fit the third detection alike, and the last one a detection
of its own. -/
def threeTracks : Mat 3 3 ℚ := .ofRows #v[#v[0, 1 / 2, 1 / 2], #v[0, 0, 1 / 2], #v[0, 1, 0]]

theorem threeTracks_graded : Graded threeTracks := by
  decide +kernel

theorem assign_optimal_total_three :
    Graded threeTracks ∧
      ∃ p s, assign .optimal threeTracks = .ok p ∧ p.Shows s ∧ IsMatching s ∧
        ∀ t, IsMatching t → total threeTracks t - tieBreakTotal ≤ total threeTracks s :=
  ⟨threeTracks_graded, assign_optimal_total threeTracks threeTracks_graded⟩

end TrackFusion.Association
