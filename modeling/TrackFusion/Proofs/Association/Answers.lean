import TrackFusion.Proofs.Association.Greedy
import TrackFusion.Proofs.Association.Optimal

/-!
# Answers of the association

What holds of the pairs that are chosen, whatever the scores are; they may be undefined, too.

* `Association.assign_shows`: the pairs are a matching, and both maps of the pairing show it.
* `Association.assign_ok`: pairs are chosen unless a cost is infinite or undefined.
-/

namespace TrackFusion

variable {m n : ℕ} {α : Type} [Scalar α]

namespace Association

variable {solver : Solver} {score : Mat m n α}

theorem minimalCost_of_assign {p : Pairing} (h : assign .optimal score = .ok p) :
    ∃ a, minimalCost (costs score) = .ok a ∧ p = pairing score a := by
  rw [assign] at h
  cases hmin : minimalCost (costs score) with
  | error e =>
    rw [hmin] at h
    cases h
  | ok a =>
    rw [hmin] at h
    cases h
    exact ⟨a, rfl, rfl⟩

/-- **The pairs are a matching**, and the two maps of a pairing are inverse to each other. -/
theorem assign_shows {p : Pairing} (h : assign solver score = .ok p) :
    ∃ s : Finset (Fin m × Fin n), IsMatching s ∧ p.Shows s := by
  have hpairing : ∃ a : Assignment m n α, OneToOne a.column ∧ p = pairing score a := by
    cases solver with
    | greedy =>
      cases h
      exact ⟨_, bestFirst_oneToOne score minScore, rfl⟩
    | optimal =>
      obtain ⟨a, ha, hp⟩ := minimalCost_of_assign h
      exact ⟨a, minimalCost_oneToOne ha, hp⟩
  obtain ⟨a, hone, rfl⟩ := hpairing
  exact ⟨kept score a, kept_isMatching score hone, pairing_shows score hone⟩

theorem assign_ok (solver : Solver) (h : ∀ i j, Scalar.isFinite (costs score i j) = true) :
    ∃ p, assign solver score = .ok p := by
  cases solver with
  | greedy => exact ⟨_, rfl⟩
  | optimal =>
    have hfinite := (Mat.isFinite_iff (costs score)).2 h
    have hmin : ∃ a, minimalCost (costs score) = .ok a := by
      rw [minimalCost, if_pos hfinite]
      split <;> exact ⟨_, rfl⟩
    obtain ⟨a, ha⟩ := hmin
    exact ⟨pairing score a, by rw [assign, ha]; rfl⟩

end Association

end TrackFusion
