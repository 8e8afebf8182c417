import TrackFusion.Proofs.Input.Calls
import TrackFusion.Proofs.Ordered

/-!
# The window of a release

What is released lies between two stamps, of which the earlier one never goes back.

* `mergeSort_stable`: sorting keeps the order of what it does not tell apart.
* `Intake.release_window`: the bounds of a release.
* `Intake.release_sorted`: a release is in the order of its stamps.
* `Intake.release_latest_le`: nothing in a release is later than the newest stamp after it.
* `Advances`, `Intake.advances_after`: the newest stamp never goes back.
-/

namespace TrackFusion

/-- Sorting puts elements in order, and those that may stand either way in the former order. -/
theorem mergeSort_stable {ι : Type} {le : ι → ι → Bool} {R : ι → ι → Prop}
    (trans : ∀ a b c, le a b = true → le b c = true → le a c = true)
    (total : ∀ a b, (le a b || le b a) = true) {l : List ι} (h : l.Pairwise R) :
    (l.mergeSort le).Pairwise fun a b => le a b = true ∧ (le b a = true → R a b) := by
  induction l with
  | nil => simp
  | cons a l ih =>
    obtain ⟨ha, hl⟩ := List.pairwise_cons.1 h
    -- the first element goes in front of all that are not strictly before it
    obtain ⟨l₁, l₂, hcons, hsort, hbefore⟩ := List.mergeSort_cons trans total a l
    have hle := List.pairwise_mergeSort trans total (a :: l)
    have hmem : ∀ b ∈ l₁ ++ l₂, b ∈ l := fun b hb => by
      rwa [← hsort, List.mem_mergeSort] at hb
    rw [hcons] at hle ⊢
    have ih := ih hl
    rw [hsort] at ih
    obtain ⟨h₁, h₂, h₁₂⟩ := List.pairwise_append.1 ih
    have hal₂ := (List.pairwise_cons.1 (List.pairwise_append.1 hle).2.1).1
    refine List.pairwise_append.2
      ⟨h₁, List.pairwise_cons.2 ⟨fun b hb => ?_, h₂⟩, fun b hb c hc => ?_⟩
    · exact ⟨hal₂ b hb, fun _ => ha b (hmem b (List.mem_append_right _ hb))⟩
    · rcases List.mem_cons.1 hc with rfl | hc
      · have hcb : le c b = false := by simpa using hbefore b hb
        have htotal := total b c
        rw [hcb, Bool.or_false] at htotal
        exact ⟨htotal, fun hcb' => by rw [hcb] at hcb'; cases hcb'⟩
      · exact h₁₂ b hb c hc

variable {α : Type} [Scalar α] [OrderedScalar α]

open OrderedScalar

/-! ### Stamps -/

theorem Time.le_trans {s t u : Time α} (h : s ≤ t) (h' : t ≤ u) : s ≤ u :=
  OrderedScalar.le_trans (α := α) h h'

theorem Time.le_refl_of_le {s t : Time α} (h : s ≤ t) : s ≤ s :=
  OrderedScalar.le_refl (OrderedScalar.isNaN_of_le (α := α) h).1

theorem Time.not_lt_of_le {s t : Time α} (h : s ≤ t) : ¬ t < s :=
  OrderedScalar.not_lt_of_le (α := α) h

/-- What is not before the later one of two stamps is before neither of them. -/
theorem Time.not_lt_of_not_lt_later {s t u : Time α} (hs : Scalar.isNaN s.seconds = false)
    (hu : Scalar.isNaN u.seconds = false) (h : ¬ u < s.later t) : s ≤ u ∧ ¬ u < t := by
  unfold later at h
  split at h
  · rename_i hst
    have hle : s.seconds ≤ t.seconds := le_of_lt hst
    have htu : t.seconds ≤ u.seconds := le_of_not_lt hu (isNaN_of_le hle).2 h
    exact ⟨OrderedScalar.le_trans hle htu, h⟩
  · rename_i hst
    have hsu : s.seconds ≤ u.seconds := le_of_not_lt hu hs h
    refine ⟨hsu, fun hut => ?_⟩
    have hle : u.seconds ≤ t.seconds := le_of_lt hut
    have hts : t.seconds ≤ s.seconds := le_of_not_lt hs (isNaN_of_le hle).2 hst
    exact OrderedScalar.not_lt_of_le (OrderedScalar.le_trans hts hsu) hut

/-- A stamp takes the place of another one, and is not before it. A number takes the place of what
is none, but not the other way round. -/
def Advances (s t : Time α) : Prop :=
  t = s ∨ Scalar.isNaN t.seconds = false ∧ (Scalar.isNaN s.seconds = false → s ≤ t)

theorem Advances.trans {s t u : Time α} (h : Advances s t) (h' : Advances t u) : Advances s u := by
  rcases h' with rfl | ⟨hu, htu⟩
  · exact h
  · rcases h with rfl | ⟨ht, hst⟩
    · exact .inr ⟨hu, htu⟩
    · exact .inr ⟨hu, fun hs => Time.le_trans (hst hs) (htu ht)⟩

theorem Advances.le {s t : Time α} (h : Advances s t) (hs : Scalar.isNaN s.seconds = false) :
    s ≤ t := by
  rcases h with rfl | ⟨-, hle⟩
  · exact OrderedScalar.le_refl hs
  · exact hle hs

theorem Advances.not_lt {s t : Time α} (h : Advances s t) : ¬ t < s := by
  intro hlt
  have hs := (isNaN_of_le (le_of_lt (a := t.seconds) hlt)).2
  exact Time.not_lt_of_le (h.le hs) hlt

namespace Intake

variable (m : Intake α) (now : Time α)

/-! ### One release -/

theorem precedes_trans (a b c : Batch α) (hab : precedes a b = true) (hbc : precedes b c = true) :
    precedes a c = true := by
  simp only [precedes, bne_iff_ne] at *
  exact order_trans hab hbc

theorem precedes_total (a b : Batch α) : (precedes a b || precedes b a) = true := by
  simp only [precedes, Bool.or_eq_true, bne_iff_ne]
  exact order_total _ _

/-- **What is released lies in the window**: it is not older than acceptable, not from before the
newest stamp released so far, and not too young. -/
theorem release_window (hfin : Scalar.isFinite m.settings.acceptableLatency = true) {b : Batch α}
    (hb : b ∈ (m.release now).1.batches) :
    now - m.settings.acceptableLatency ≤ b.stamp ∧ ¬ b.stamp < m.latest ∧
      b.stamp ≤ now - m.settings.targetLatency := by
  obtain ⟨s, -, -, hdue⟩ := (m.mem_release now).1 hb
  obtain ⟨hnew, hold⟩ : ¬ b.stamp < (m.window now).1 ∧ b.stamp ≤ (m.window now).2 := by
    simpa [Stream.isDue, Stream.isStale] using hdue
  obtain ⟨hnum, hnum'⟩ := isNaN_of_le (α := α) hold
  -- a window that has an end has a time `now`, so it has a beginning
  have hnow : Scalar.isNaN now.seconds = false := isNaN_of_sub hnum'
  obtain ⟨hle, hlatest⟩ := Time.not_lt_of_not_lt_later (isNaN_sub hnow hfin) hnum hnew
  exact ⟨hle, hlatest, hold⟩

theorem isNaN_of_mem_release {b : Batch α} (hb : b ∈ (m.release now).1.batches) :
    Scalar.isNaN b.stamp.seconds = false := by
  obtain ⟨s, -, -, hdue⟩ := (m.mem_release now).1 hb
  have hold : b.stamp ≤ (m.window now).2 := of_decide_eq_true (Bool.and_eq_true_iff.1 hdue).2
  exact (isNaN_of_le (α := α) hold).1

/-- A release is in the order of its stamps. -/
theorem release_sorted : (m.release now).1.batches.Pairwise fun a b => a.stamp ≤ b.stamp := by
  have h : (m.release now).1.batches.Pairwise fun a b => precedes a b = true := by
    rw [release_batches]
    exact List.pairwise_mergeSort precedes_trans precedes_total _
  refine h.imp_of_mem fun ha hb hab => ?_
  exact le_of_order (bne_iff_ne.1 hab) (m.isNaN_of_mem_release now ha)
    (m.isNaN_of_mem_release now hb)

/-- Nothing in a release is later than the newest stamp after it. -/
theorem release_latest_le {b : Batch α} (hb : b ∈ (m.release now).1.batches) :
    b.stamp ≤ (m.release now).2.latest := by
  have hsorted := m.release_sorted now
  rcases List.eq_nil_or_concat' (m.release now).1.batches with h | ⟨l, c, h⟩
  · rw [h] at hb
    cases hb
  · rw [m.latest_of_release now h]
    rw [h] at hsorted
    rcases List.mem_append.1 (h ▸ hb) with hl | hc
    · exact (List.pairwise_append.1 hsorted).2.2 b hl c List.mem_cons_self
    · have hnum := m.isNaN_of_mem_release now hb
      rw [List.mem_singleton.1 hc] at hnum ⊢
      exact OrderedScalar.le_refl hnum

/-! ### The newest stamp -/

variable {m}

theorem advances_release (hfin : Scalar.isFinite m.settings.acceptableLatency = true) :
    Advances m.latest (m.release now).2.latest := by
  rcases List.eq_nil_or_concat' (m.release now).1.batches with h | ⟨l, c, h⟩
  · left
    rw [release_latest, h]
    rfl
  · right
    have hc : c ∈ (m.release now).1.batches := by simp [h]
    have hnum := m.isNaN_of_mem_release now hc
    rw [m.latest_of_release now h]
    exact ⟨hnum, fun hs => le_of_not_lt hnum hs (m.release_window now hfin hc).2.1⟩

end Intake

end TrackFusion
