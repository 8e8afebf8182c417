import TrackFusion.Proofs.Node.Runs

/-!
# What is published

Every way to a publication leads through pruning at its time.

* `Node.PrunedAt`: a node as pruning has left it.
* `Node.publication_cases`: a publication is read off such a node.
* `Roster.perm_exported`: a track that has something to publish is confirmed or tentative.
* `Publication.Safe`, `Node.publications_ok`: what holds of all that is published.
-/

namespace TrackFusion

section scalar

variable {α : Type} [Scalar α]

/-! ### The lists of a publication -/

theorem Track.exportAt?_id {t : Track α} {now : Time α} {o : TrackedObject α}
    (h : t.exportAt? now = some o) : o.id = t.id := by
  rw [exportAt?] at h
  split at h
  · cases h
  · split at h
    · cases h
      rfl
    · cases h

namespace Roster

variable (r : Roster α) (now : Time α)

/-- All tracks that have something to publish, in their order. -/
def exported : List (TrackedObject α) := r.tracks.filterMap fun t => t.exportAt? now

/-- A track that has something to publish is confirmed or tentative, but not both. -/
theorem perm_exported : (r.confirmedAt now ++ r.tentativeAt now).Perm (r.exported now) := by
  rw [confirmedAt, tentativeAt, ← List.filterMap_append]
  exact (List.filter_append_perm (fun t : Track α => t.isConfirmed r.settings.confirmAfter)
    r.tracks).filterMap _

theorem exported_ids : ((r.exported now).map TrackedObject.id).Sublist (r.tracks.map Track.id) := by
  rw [exported]
  induction r.tracks with
  | nil => exact List.Sublist.refl _
  | cons t l ih =>
    rw [List.filterMap_cons]
    cases h : t.exportAt? now with
    | none => exact ih.cons _
    | some o =>
      rw [List.map_cons, List.map_cons, Track.exportAt?_id h]
      exact ih.cons_cons _

theorem mem_confirmedAt {o : TrackedObject α} :
    o ∈ r.confirmedAt now ↔
      ∃ t ∈ r.tracks, r.settings.confirmAfter ≤ t.hits ∧ t.exportAt? now = some o := by
  simp [confirmedAt, Track.isConfirmed, and_assoc]

theorem mem_tentativeAt {o : TrackedObject α} :
    o ∈ r.tentativeAt now ↔
      ∃ t ∈ r.tracks, t.hits < r.settings.confirmAfter ∧ t.exportAt? now = some o := by
  simp [tentativeAt, Track.isConfirmed, and_assoc]

end Roster

/-! ### The ways to a publication -/

namespace Node

/-- A node as pruning at a time leaves it, when a batch has been worked through or before something
is published. -/
inductive PrunedAt : Node α → Time α → Prop where
  | process {n n' : Node α} {b : Batch α} (h : n.process? b = some n') : PrunedAt n' b.stamp
  | publish (n : Node α) (now : Time α) : PrunedAt (n.publish now).1 now

theorem PrunedAt.exists_prune {n : Node α} {now : Time α} (h : PrunedAt n now) :
    ∃ r : Roster α, n.roster = r.prune now := by
  cases h with
  | process h =>
    obtain ⟨ego, seen, p, -, -, rfl⟩ := process?_cases h
    exact ⟨_, rfl⟩
  | publish n now => exact ⟨n.roster, rfl⟩

/-- **A publication is read off a node that has just been pruned**, at the time that the publication
is for. A batch that is skipped comes in between, but changes nothing. -/
theorem publication_cases {n n' : Node α} {c : Call α} {p : Publication α}
    (h : n.call c = (n', some p)) :
    PrunedAt n' p.confirmed.stamp ∧ p = n'.publicationAt p.confirmed.stamp := by
  have hpublish : ∀ (m : Node α) now, m.call (.publish now) = (n', some p) →
      PrunedAt n' p.confirmed.stamp ∧ p = n'.publicationAt p.confirmed.stamp := by
    intro m now h
    cases h
    exact ⟨.publish m now, rfl⟩
  cases c with
  | push channel b now => cases h
  | trigger now =>
    rw [call, trigger_eq] at h
    split at h
    · cases h
    · split at h
      · obtain ⟨hn, hp⟩ := Prod.mk.inj h
        obtain ⟨t, ht, rfl⟩ := Option.map_eq_some_iff.1 hp
        obtain ⟨m, b, hb, rfl⟩ := processAll_last ht
        subst hn
        exact ⟨.process hb, rfl⟩
      · split at h
        · exact hpublish _ now h
        · cases h
  | tick now =>
    rw [call, tick_eq] at h
    split at h
    · exact hpublish _ now h
    · cases h
  | process b => cases h
  | publish now => exact hpublish n now h

end Node

end scalar

variable {α : Type} [ExactScalar α]

/-- What holds of a publication that is read off the tracks of a roster. -/
structure Publication.Safe (p : Publication α) (s : Settings α) (r : Roster α) : Prop where
  frame : p.confirmed.frame = s.worldFrame
  /-- The tentative tracks are published at the same time, or not at all. -/
  tentative : p.tentative? =
    if s.publishTentative then
      some ⟨p.confirmed.stamp, s.worldFrame, r.tentativeAt p.confirmed.stamp⟩
    else none
  believed : ∀ o ∈ p.confirmed.objects, ∃ t ∈ r.tracks,
    t.exportAt? p.confirmed.stamp = some o ∧ s.roster.confirmAfter ≤ t.hits
  doubted : ∀ o ∈ r.tentativeAt p.confirmed.stamp, ∃ t ∈ r.tracks,
    t.exportAt? p.confirmed.stamp = some o ∧ t.hits < s.roster.confirmAfter
  recent : ∀ t ∈ r.tracks, t.elapsed p.confirmed.stamp ≤ s.roster.maxElapsed
  /-- No two tracks overlap, the earlier one named first. -/
  apart : r.tracks.Pairwise (Roster.Apart s.roster p.confirmed.stamp)
  /-- Together, the two lists have every track that has something to publish. -/
  complete : (p.confirmed.objects ++ r.tentativeAt p.confirmed.stamp).Perm
    (r.exported p.confirmed.stamp)
  /-- Nothing is in both of them, or twice in one. -/
  distinct : ((p.confirmed.objects ++ r.tentativeAt p.confirmed.stamp).map
    TrackedObject.id).Nodup

namespace Node

theorem PrunedAt.safe {s : Settings α} {n : Node α} (hn : Sound s n) {now : Time α}
    (h : PrunedAt n now) : (n.publicationAt now).Safe s n.roster := by
  obtain ⟨r, hr⟩ := h.exists_prune
  have hset : r.settings = s.roster := by
    rw [← hn.roster, hr]
    rfl
  have hids : ((n.roster.exported now).map TrackedObject.id).Nodup :=
    hn.named.nodup.sublist (n.roster.exported_ids now)
  refine ⟨by rw [← hn.settings]; rfl, by rw [← hn.settings]; rfl, fun o ho => ?_, fun o ho => ?_,
    fun t ht => ?_, ?_, n.roster.perm_exported now, ?_⟩
  · obtain ⟨t, ht, hits, he⟩ := (n.roster.mem_confirmedAt now).1 ho
    exact ⟨t, ht, he, hn.roster ▸ hits⟩
  · obtain ⟨t, ht, hits, he⟩ := (n.roster.mem_tentativeAt now).1 ho
    exact ⟨t, ht, he, hn.roster ▸ hits⟩
  · rw [hr] at ht
    exact hset ▸ r.elapsed_prune now ht
  · rw [hr, ← hset]
    exact (r.prune_pairwise now).imp (Roster.collide_eq_false_iff r.settings now _ _).1
  · exact ((n.roster.perm_exported now).map TrackedObject.id).nodup_iff.2 hids

/-- **All that is published is safe.** Whatever calls come before, a publication is read off a node
that has just been pruned at its time: the tracks in it have had enough detections, the last one not
too long ago, they have different names and do not overlap, and none is missing. -/
theorem publications_ok [Json.Number α] (s : Settings α) (frames : FrameLookup α) (start : Time α)
    (ids : IdStream) (n : Node α) (hn : ofSettings s frames start ids = .ok n)
    (calls : List (Call α)) (c : Call α) (n' : Node α) (p : Publication α)
    (h : (n.after calls).call c = (n', some p)) :
    PrunedAt n' p.confirmed.stamp ∧ p = n'.publicationAt p.confirmed.stamp ∧
      p.Safe s n'.roster := by
  obtain ⟨hpruned, hp⟩ := publication_cases h
  have hsound : Sound s n' := by
    have := ((ofSettings_sound hn).after calls).call c
    rwa [h] at this
  refine ⟨hpruned, hp, ?_⟩
  have hsafe := hpruned.safe hsound
  rwa [← hp] at hsafe

/-- Three posts are published, of which the first one has just been missed. No two of them have one
name, and the nearest ones do not overlap. -/
theorem publications_ok_posts :
    ∃ (n n' : Node ℚ) (p : Publication ℚ), ofSettings trusting still ⟨0⟩ = .ok n ∧
      (n.after [.process twoPosts, .process nextPosts]).call (.publish ⟨1.3⟩) = (n', some p) ∧
      p.confirmed.objects.map TrackedObject.id =
        [IdStream.counting.nth 0, IdStream.counting.nth 1, IdStream.counting.nth 2] ∧
      p.Safe trusting n'.roster := by
  obtain ⟨n, hn⟩ := exists_ofSettings_trusting
  obtain ⟨-, -, hsafe⟩ := publications_ok trusting still ⟨0⟩ .counting n hn
    [.process twoPosts, .process nextPosts] (.publish ⟨1.3⟩) _ _ rfl
  exact ⟨n, _, _, hn, rfl, published_posts hn, hsafe⟩

end Node

end TrackFusion
