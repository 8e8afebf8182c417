import TrackFusion.Proofs.Association.Answers
import TrackFusion.Proofs.Node.Runs
import TrackFusion.Proofs.Rounded

/-!
# One batch

* `Node.pair?_isSome`: detections and tracks are always paired.
* `Node.process?_eq_none_iff`: a batch is skipped only if its place is unknown.
* `Node.process_ok`: and otherwise every detection of it is used exactly once.
-/

namespace TrackFusion

variable {α : Type} [Scalar α]

namespace Node

theorem locate?_eq_none_iff (n : Node α) (b : Batch α) :
    n.locate? b = none ↔
      n.frames n.settings.egoFrame n.settings.worldFrame b.stamp = none ∨
        b.frame ≠ n.settings.worldFrame ∧
          n.frames b.frame n.settings.worldFrame b.stamp = none := by
  have hframe : b.inFrame? n.settings.worldFrame n.frames = none ↔
      b.frame ≠ n.settings.worldFrame ∧ n.frames b.frame n.settings.worldFrame b.stamp = none := by
    by_cases h : b.frame = n.settings.worldFrame <;> simp [Batch.inFrame?, h]
  rw [← hframe, locate?]
  cases n.frames n.settings.egoFrame n.settings.worldFrame b.stamp <;>
    cases b.inFrame? n.settings.worldFrame n.frames <;> simp

/-- The pairs that are chosen are those of a matching. -/
theorem pair?_shows {n : Node α} {b : Batch α} {p : Pairing} (h : n.pair? b = some p) :
    ∃ s : Finset (Fin n.roster.tracks.length × Fin b.objects.length), IsMatching s ∧ p.Shows s := by
  rw [pair?] at h
  cases ha : Association.assign n.association.solver
      (n.association.scores b n.roster.tracks) with
  | error e =>
    rw [ha] at h
    cases h
  | ok q =>
    rw [ha] at h
    cases h
    exact Association.assign_shows ha

variable [RoundedScalar α]

theorem pair?_isSome (n : Node α) (hsize : n.roster.tracks.length < 2 ^ 64) (b : Batch α) :
    ∃ p, n.pair? b = some p := by
  obtain ⟨p, hp⟩ := Association.assign_ok n.association.solver
    (Association.isFinite_costs hsize (n.association.scores b n.roster.tracks))
  exact ⟨p, by rw [pair?, hp]; rfl⟩

theorem process?_eq_none_iff (n : Node α) (hsize : n.roster.tracks.length < 2 ^ 64)
    (b : Batch α) : n.process? b = none ↔ n.locate? b = none := by
  rw [process?]
  cases n.locate? b with
  | none => simp
  | some l =>
    obtain ⟨p, hp⟩ := n.pair?_isSome hsize l.2
    simp [hp]

omit [RoundedScalar α] in
/-- **Batch by batch, every count is raised by one at most.** -/
theorem countedIn_processAll {n : Node α} {cycles : ℕ}
    (h : ∀ t ∈ n.roster.tracks, t.CountedIn cycles) (bs : List (Batch α)) :
    ∀ t ∈ (n.processAll bs).1.roster.tracks, t.CountedIn (cycles + bs.length) := by
  induction bs generalizing n cycles with
  | nil => exact h
  | cons b bs ih =>
    have hstep : ∀ t ∈ ((n.process? b).getD n).roster.tracks, t.CountedIn (cycles + 1) := by
      cases hb : n.process? b with
      | none => exact fun t ht => (h t ht).succ
      | some n' =>
        obtain ⟨ego, seen, p, -, -, rfl⟩ := process?_cases hb
        intro t ht
        exact Roster.countedIn_absorb h seen ego p t ((Roster.prune_sublist _ _).subset ht)
    rw [processAll_cons_fst, List.length_cons, Nat.add_comm bs.length, ← Nat.add_assoc]
    exact ih hstep

/-- **Every detection is used exactly once, and a skipped batch changes nothing.** A batch is
skipped if the place of the vehicle or of the batch is unknown, and only then. Any other one is
entered in the books of the tracks, which are pruned at last. The bound is on the tracks that a list
in memory can hold: it takes far more to make a cost infinite. Batch by batch, no count of a track
is raised by more than one, so that 32 bits are enough for fewer than `2 ^ 32` of them. -/
theorem process_ok (n : Node α) (b : Batch α) (hsize : n.roster.tracks.length < 2 ^ 64) :
    (n.process? b = none ↔
      n.frames n.settings.egoFrame n.settings.worldFrame b.stamp = none ∨
        b.frame ≠ n.settings.worldFrame ∧
          n.frames b.frame n.settings.worldFrame b.stamp = none) ∧
    (n.process? b = none →
      n.call (.process b) = (n, none) ∧ ∀ bs, n.processAll (b :: bs) = n.processAll bs) ∧
    (∀ n', n.process? b = some n' → ∃ ego seen p r,
      n.locate? b = some (ego, seen) ∧ n.pair? seen = some p ∧
      seen.stamp = b.stamp ∧ seen.objects.length = b.objects.length ∧
      Roster.Ledger n.roster seen ego p r ∧ n' = { n with roster := r.prune b.stamp }) ∧
    ∀ cycles, (∀ t ∈ n.roster.tracks, t.CountedIn cycles) → ∀ bs : List (Batch α),
      (∀ t ∈ (n.processAll bs).1.roster.tracks, t.CountedIn (cycles + bs.length)) ∧
      (cycles + bs.length < 2 ^ 32 → ∀ t ∈ (n.processAll bs).1.roster.tracks, t.CountsFit) := by
  refine ⟨?_, fun hskip => ⟨?_, fun bs => ?_⟩, fun n' h => ?_, fun cycles hcounted bs => ?_⟩
  · rw [n.process?_eq_none_iff hsize, locate?_eq_none_iff]
  · rw [call, hskip]
    rfl
  · simp only [processAll, List.foldl_cons, hskip]
  · obtain ⟨ego, seen, p, hl, hp, rfl⟩ := process?_cases h
    obtain ⟨hstamp, f, hobjects⟩ := inFrame?_cases (locate?_cases hl).2
    obtain ⟨s, hs, hshows⟩ := pair?_shows hp
    exact ⟨ego, seen, p, n.roster.absorb seen ego p, hl, hp, hstamp, by simp [hobjects],
      Roster.absorb_ledger hs hshows ego, rfl⟩
  · have hcounts := countedIn_processAll hcounted bs
    exact ⟨hcounts, fun hfew t ht => (hcounts t ht).fit hfew⟩

/-- Of two posts, one is missed and one is seen again, and there is a new one. -/
theorem process_ok_posts :
    ∃ (n n₁ n₂ : Node ℚ) (ego : Isometry ℚ) (seen : Batch ℚ) (p : Pairing) (r : Roster ℚ),
      ofSettings trusting still ⟨0⟩ = .ok n ∧ n.process? twoPosts = some n₁ ∧
      n₁.roster.tracks.length = 2 ∧ n₁.process? nextPosts = some n₂ ∧
      p.direct = ⟨[(1, 0)]⟩ ∧ Roster.Ledger n₁.roster seen ego p r ∧
      n₂ = { n₁ with roster := r.prune nextPosts.stamp } ∧
      (n₂.roster.tracks.map fun t => (t.hits, t.misses, t.missStreak)) =
        [(1, 1, 1), (2, 0, 0), (1, 0, 0)] ∧
      n.processAll [twoPosts, nextPosts] = (n₂, some nextPosts.stamp) ∧
      ∀ t ∈ n₂.roster.tracks, t.CountsFit := by
  have hscene : ((ofSettings (α := ℚ) trusting still ⟨0⟩).toOption.bind fun n =>
      (n.process? twoPosts).bind fun n₁ => (n₁.locate? nextPosts).bind fun l =>
      (n₁.pair? l.2).bind fun p => (n₁.process? nextPosts).map fun n₂ =>
        (n₁.roster.tracks.length, p.direct,
          n₂.roster.tracks.map fun t => (t.hits, t.misses, t.missStreak))) =
      some (2, ⟨[(1, 0)]⟩, [(1, 1, 1), (2, 0, 0), (1, 0, 0)]) := by
    decide +kernel
  obtain ⟨n, hn⟩ := exists_ofSettings_trusting
  simp only [hn, Except.toOption, Option.bind_some, Option.bind_eq_some_iff,
    Option.map_eq_some_iff, Prod.mk.injEq] at hscene
  obtain ⟨n₁, hn₁, l, hl, p, hp, n₂, hn₂, hlength, hdirect, hcounts⟩ := hscene
  have hempty : n.roster.tracks = [] := by
    obtain ⟨-, -, -, -, hr, -, -⟩ := ofSettings_cases hn
    rw [hr]
    rfl
  obtain ⟨-, -, hbooks, -⟩ := process_ok n₁ nextPosts (by rw [hlength]; decide)
  obtain ⟨ego, seen, p', r, hl', hp', -, -, hledger, heq⟩ := hbooks n₂ hn₂
  obtain rfl := Option.some.inj (hl.symm.trans hl')
  obtain rfl := Option.some.inj (hp.symm.trans hp')
  have hboth : n.processAll [twoPosts, nextPosts] = (n₂, some nextPosts.stamp) := by
    simp only [processAll, List.foldl_cons, List.foldl_nil, hn₁, hn₂]
  obtain ⟨-, hfit⟩ := (process_ok n twoPosts (by rw [hempty]; decide)).2.2.2 0
    (by simp [hempty]) [twoPosts, nextPosts]
  rw [hboth] at hfit
  exact ⟨n, n₁, n₂, ego, seen, p, r, hn, hn₁, hlength, hn₂, hdirect, hledger, heq, hcounts,
    hboth, hfit (by decide)⟩

end Node

end TrackFusion
