import TrackFusion.Proofs.Exact
import TrackFusion.Proofs.Node.Calls
import TrackFusion.Proofs.Roster.Ledger

/-!
# Runs of a node

* `Node.ofSettings_cases`: a node that starts.
* `Node.Sound`: the settings of a node hold all along, and its tracks have names of their own.
* `Node.Sound.after`: so it is after any calls.
-/

namespace TrackFusion

variable {α : Type} [Scalar α]

namespace Node

/-- **A node that starts** has no tracks, and its settings have been checked. -/
theorem ofSettings_cases [Json.Number α] {s : Settings α} {frames : FrameLookup α} {now : Time α}
    {ids : IdStream} {n : Node α} (h : ofSettings s frames now ids = .ok n) :
    s.check = .ok () ∧ Intake.ofSettings s.channels s.window now = .ok n.intake ∧
      Association.ofSettings s.association = .ok n.association ∧ n.settings = s ∧
      n.roster = .empty s.roster s.kinds ids ∧ n.frames = frames ∧ n.lastPublished = now := by
  rw [ofSettings] at h
  cases hc : s.check with
  | error e =>
    rw [hc] at h
    cases h
  | ok u =>
    cases hm : Intake.ofSettings s.channels s.window now with
    | error e =>
      rw [hc, hm] at h
      cases h
    | ok m =>
      cases ha : Association.ofSettings s.association with
      | error e =>
        rw [hc, hm, ha] at h
        cases h
      | ok a =>
        rw [hc, hm, ha] at h
        cases h
        exact ⟨rfl, rfl, rfl, rfl, rfl, rfl, rfl⟩

theorem exists_ofSettings_trusting : ∃ n : Node ℚ, ofSettings trusting still ⟨0⟩ = .ok n := by
  have hok : (ofSettings (α := ℚ) trusting still ⟨0⟩).isOk = true := by decide +kernel
  cases hn : ofSettings (α := ℚ) trusting still ⟨0⟩ with
  | error e =>
    rw [hn] at hok
    cases hok
  | ok n => exact ⟨n, rfl⟩

/-- The posts of both batches are published, each under its own name. -/
theorem published_posts {n : Node ℚ} (hn : ofSettings trusting still ⟨0⟩ = .ok n) :
    ((n.after [.process twoPosts, .process nextPosts]).publish ⟨1.3⟩).2.confirmed.objects.map
        TrackedObject.id =
      [IdStream.counting.nth 0, IdStream.counting.nth 1, IdStream.counting.nth 2] := by
  have hthree : (ofSettings (α := ℚ) trusting still ⟨0⟩).toOption.map (fun n =>
      ((n.after [.process twoPosts, .process nextPosts]).publish ⟨1.3⟩).2.confirmed.objects.map
        TrackedObject.id) =
      some [IdStream.counting.nth 0, IdStream.counting.nth 1, IdStream.counting.nth 2] := by
    decide +kernel
  rw [hn] at hthree
  exact Option.some.inj hthree

/-- What no call changes about a node with the settings `s`. -/
structure Sound (s : Settings α) (n : Node α) : Prop where
  settings : n.settings = s
  roster : n.roster.settings = s.roster
  named : n.roster.Named

theorem ofSettings_sound [Json.Number α] {s : Settings α} {frames : FrameLookup α} {now : Time α}
    {ids : IdStream} {n : Node α} (h : ofSettings s frames now ids = .ok n) : Sound s n := by
  obtain ⟨-, -, -, hs, hr, -, -⟩ := ofSettings_cases h
  exact ⟨hs, by rw [hr]; rfl, by rw [hr]; exact List.nil_sublist _⟩

variable {s : Settings α} {n n' : Node α}

theorem Sound.process (h : Sound s n) {b : Batch α} (hb : n.process? b = some n') :
    Sound s n' := by
  obtain ⟨ego, seen, p, -, -, rfl⟩ := process?_cases hb
  refine ⟨h.settings, ?_, (h.named.absorb seen ego p).prune b.stamp⟩
  rw [Roster.absorb_eq]
  exact h.roster

theorem Sound.publish (h : Sound s n) (now : Time α) : Sound s (n.publish now).1 :=
  ⟨h.settings, h.roster, h.named.prune now⟩

theorem Sound.call (h : Sound s n) (c : Call α) : Sound s (n.call c).1 :=
  call_induction (fun _ _ h => ⟨h.settings, h.roster, h.named⟩)
    (fun _ _ _ hb h => h.process hb) (fun _ now h => h.publish now) h c

theorem Sound.after (h : Sound s n) (calls : List (Call α)) : Sound s (n.after calls) :=
  after_induction (fun _ c _ h => h.call c) h

end Node

end TrackFusion
