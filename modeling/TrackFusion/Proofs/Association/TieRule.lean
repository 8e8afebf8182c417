import TrackFusion.Proofs.Association.Greedy
import TrackFusion.Proofs.Association.TotalScore

/-!
# Who gets a tied detection

If a detection fits two tracks equally well, the track with the lower index should have it before
the other one. The greedy association keeps this rule. The optimal one does so among the tracks that
it leaves without a column, but not among those that it puts to detections which score nothing:
there the charges for ties cancel.

* `TieRule`: the rule.
* `Parked`: a lower track is put to a detection that scores nothing.
* `assign_tieRule_iff`: the rule holds exactly if the optimal assignment parks no tied track.
* `not_tieRule_three`: three tracks and three detections for which it fails.
-/

namespace TrackFusion.Association

variable {α : Type} [ExactScalar α] {m n : ℕ}

/-- No track is left without a detection if a later one gets a detection that fits both alike. -/
def TieRule (score : Mat m n α) (p : Pairing) : Prop :=
  ∀ (k i : Fin m) (j : Fin n), k < i → p.direct.get? i = some j.val → score k j = score i j →
    p.direct.contains k = true

/-- A track is put to a detection that scores nothing, while a later one has a detection that fits
both alike. The later one does not score with the former detection, either. -/
def Parked (score : Mat m n α) (a : Assignment m n α) : Prop :=
  ∃ (k i : Fin m) (j j' : Fin n), k < i ∧
    a.column i = some j ∧ minScore ≤ score i j ∧ score k j = score i j ∧
    a.column k = some j' ∧ score k j' = 0 ∧ score i j' = 0

theorem direct_pairing {score : Mat m n α} {a : Assignment m n α} (hone : OneToOne a.column)
    (i : Fin m) (j : Fin n) :
    (pairing score a).direct.get? i = some j.val ↔ a.column i = some j ∧ minScore ≤ score i j := by
  rw [(pairing_shows score hone).direct]
  constructor
  · rintro ⟨⟨i', j'⟩, hq, hi, hj⟩
    obtain rfl : i' = i := Fin.ext hi
    obtain rfl : j' = j := Fin.ext hj
    obtain ⟨hcol, hge⟩ := (mem_kept score a _).1 hq
    exact ⟨hcol, not_lt.1 hge⟩
  · rintro ⟨hcol, hge⟩
    exact ⟨(i, j), (mem_kept score a _).2 ⟨hcol, not_lt.2 hge⟩, rfl, rfl⟩

theorem contains_pairing {score : Mat m n α} {a : Assignment m n α} (hone : OneToOne a.column)
    (i : Fin m) :
    (pairing score a).direct.contains i = true ↔
      ∃ j, a.column i = some j ∧ minScore ≤ score i j := by
  rw [IndexMap.contains, Option.isSome_iff_exists]
  constructor
  · rintro ⟨v, hv⟩
    obtain ⟨q, -, -, rfl⟩ := ((pairing_shows score hone).direct i v).1 hv
    exact ⟨q.2, (direct_pairing hone i q.2).1 hv⟩
  · rintro ⟨j, hj⟩
    exact ⟨j.val, (direct_pairing hone i j).2 hj⟩

/-! ### Greedy -/

theorem tieRule_bestFirst (score : Mat m n α) :
    TieRule score (pairing score (bestFirst score minScore)) := by
  have hone := bestFirst_oneToOne score (minScore : α)
  intro k i j hki hi htie
  obtain ⟨hij, hge⟩ := (direct_pairing hone i j).1 hi
  rw [contains_pairing hone]
  have hstable := bestFirst_stable score minScore
  rcases hstable.blocked k j (admissible_iff.2 (htie ▸ hge)) with h | ⟨i', j', h, hor, hbeats⟩
  · exact ⟨j, h, htie ▸ hge⟩
  · rcases hor with rfl | rfl
    · exact ⟨j', h, (hstable.admissible _ j' h).2⟩
    · -- the detection is with `i`, which is not better than the lower track
      obtain rfl : i' = i := hone _ _ _ h hij
      rcases hbeats with hlt | ⟨-, hlt | ⟨heq, -⟩⟩
      · exact absurd htie hlt.ne
      · exact absurd hki hlt.asymm
      · exact absurd heq hki.ne'

/-! ### Optimal -/

section swap

variable {cost : Mat m n α} {π : Equiv.Perm (Fin (Nat.max m n))}

/-- Exchanging the columns of two rows does not lower the least cost. -/
theorem swap_le (hmin : ∀ σ, total cost (tableCells π) ≤ total cost (tableCells σ))
    {x y : Fin (Nat.max m n)} (hxy : x ≠ y) :
    padded cost x (π x) + padded cost y (π y) ≤ padded cost x (π y) + padded cost y (π x) := by
  have h := hmin (π * Equiv.swap x y)
  rw [← sum_padded, ← sum_padded, ← sub_nonneg, ← Finset.sum_sub_distrib,
    ← Finset.sum_subset (Finset.subset_univ {x, y}), Finset.sum_pair hxy] at h
  · simp only [Equiv.Perm.mul_apply, Equiv.swap_apply_left, Equiv.swap_apply_right] at h
    linarith
  · intro z _ hz
    rw [Finset.mem_insert, Finset.mem_singleton, not_or] at hz
    rw [Equiv.Perm.mul_apply, Equiv.swap_apply_of_ne_of_ne hz.1 hz.2, sub_self]

theorem padded_table (i : Fin m) (j : Fin n) :
    padded cost (squareRow n i) (squareCol m j) = cost i j := by
  rw [padded, Mat.ofFn_apply, dif_pos ⟨i.isLt, j.isLt⟩]
  rfl

theorem padded_of_le (x : Fin (Nat.max m n)) {y : Fin (Nat.max m n)} (hy : n ≤ y.val) :
    padded cost x y = 0 := by
  rw [padded, Mat.ofFn_apply, dif_neg]
  rintro ⟨-, h⟩
  omega

end swap

/-- A track that loses a tied detection to a later one is parked: without a column it would be
cheaper than the later one. -/
theorem parked_of_tie {score : Mat m n α} (h : Graded score) {a : Assignment m n α}
    {π : Equiv.Perm (Fin (Nat.max m n))}
    (hπ : ∀ i j, a.column i = some j ↔ (i, j) ∈ tableCells π)
    (hmin : ∀ σ, total (costs score) (tableCells π) ≤ total (costs score) (tableCells σ))
    {k i : Fin m} {j : Fin n} (hki : k < i) (hij : a.column i = some j)
    (hge : minScore ≤ score i j) (htie : score k j = score i j)
    (hk : ¬ ∃ j', a.column k = some j' ∧ minScore ≤ score k j') : Parked score a := by
  have hne : squareRow n k ≠ squareRow n i := fun e => hki.ne (squareRow_inj e)
  have hi : π (squareRow n i) = squareCol m j := (mem_tableCells π _).1 ((hπ i j).1 hij)
  have hswap := swap_le hmin hne
  rw [hi, padded_table, padded_table, costs_apply, costs_apply, htie] at hswap
  -- between two columns of the table the charges cancel; a row without one pays no charge
  rcases lt_or_ge (π (squareRow n k)).val n with hlt | hle
  · have hcol : π (squareRow n k) = squareCol m ⟨_, hlt⟩ := rfl
    rw [hcol, padded_table, padded_table, costs_apply, costs_apply] at hswap
    have hkj' : a.column k = some ⟨_, hlt⟩ := (hπ k _).2 ((mem_tableCells π _).2 hcol)
    have hzero : score k ⟨_, hlt⟩ = 0 := by
      refine h.eq_zero ?_
      by_contra hge'
      exact hk ⟨_, hkj', not_lt.1 hge'⟩
    have hzero' := h.nonneg i ⟨_, hlt⟩
    exact ⟨k, i, j, _, hki, hij, hge, htie, hkj', hzero, by linarith⟩
  · rw [padded_of_le _ hle, padded_of_le _ hle] at hswap
    have hstep : (0 : α) < tieStep α m := tieStep_pos
    have hcast : (k.val : α) < (i.val : α) := Nat.cast_lt.2 hki
    nlinarith

/-- **When a tied detection goes to the lower track.** With the greedy solver it always does. With
the optimal one it does exactly if no tied track is parked, that is put to a detection with which
neither of the two scores. -/
theorem assign_tieRule_iff (solver : Solver) (score : Mat m n α) (h : Graded score) :
    ∃ p, assign solver score = .ok p ∧
      (TieRule score p ↔
        ∀ a, solver = .optimal → minimalCost (costs score) = .ok a → ¬ Parked score a) := by
  cases solver with
  | greedy =>
    refine ⟨_, rfl, ?_, fun _ => tieRule_bestFirst score⟩
    rintro - a ⟨⟩
  | optimal =>
    obtain ⟨a, ha, π, hπ, hmin⟩ := minimalCost_optimal (costs score)
    have hone := oneToOne_of_tableCells hπ
    refine ⟨pairing score a, by rw [assign, ha]; rfl, ?_, ?_⟩
    · rintro hrule a' - ha' ⟨k, i, j, j', hki, hij, hge, htie, hkj', hzero, -⟩
      rw [ha] at ha'
      cases ha'
      obtain ⟨j'', hkj'', hge'⟩ := (contains_pairing hone k).1
        (hrule k i j hki ((direct_pairing hone i j).2 ⟨hij, hge⟩) htie)
      rw [hkj'] at hkj''
      cases hkj''
      rw [hzero] at hge'
      exact absurd minScore_pos (not_lt.2 hge')
    · intro hpark k i j hki hi htie
      obtain ⟨hij, hge⟩ := (direct_pairing hone i j).1 hi
      rw [contains_pairing hone]
      by_contra hk
      exact hpark a rfl ha (parked_of_tie h hπ hmin hki hij hge htie hk)

theorem assign_tieRule_iff_three :
    Graded threeTracks ∧ ∃ p, assign .optimal threeTracks = .ok p ∧
      (TieRule threeTracks p ↔ ∀ a, Solver.optimal = .optimal →
        minimalCost (costs threeTracks) = .ok a → ¬ Parked threeTracks a) :=
  ⟨threeTracks_graded, assign_tieRule_iff .optimal threeTracks threeTracks_graded⟩

/-- The second track gets the last detection, which fits the first one alike, and the first one is
left without any: it is parked at a detection that scores nothing. -/
theorem not_tieRule_three :
    Graded threeTracks ∧
      ∃ p, assign .optimal threeTracks = .ok p ∧ ¬ TieRule threeTracks p := by
  refine ⟨threeTracks_graded, ⟨⟨[(2, 1), (1, 2)]⟩, ⟨[(1, 2), (2, 1)]⟩⟩, ?_, fun h => ?_⟩
  · decide +kernel
  · have := h 0 1 2 (by decide) (by decide) (by decide +kernel)
    exact absurd this (by decide)

end TrackFusion.Association
