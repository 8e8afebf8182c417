import TrackFusion.Proofs.Exact
import TrackFusion.Roster.Basic

/-!
# No overlapping survivors

Pruning compares every track with those behind it that are still left. Whoever survives has been
compared with every other survivor, whatever was suppressed in between.

* `RosterSettings.confront_ok`: what one comparison leaves of the tracks behind.
* `RosterSettings.survivors_pairwise`: no two survivors collide.
* `RosterSettings.survivors_eq_self`: if nobody collides, everybody survives.
* `Roster.prune_ok`: no two tracks overlap after pruning, and to prune again changes nothing.
-/

namespace TrackFusion

namespace RosterSettings

variable {α : Type} [Scalar α] (s : RosterSettings α)

/-! ### One track and those behind it -/

theorem confront_sublist (a : Sighting α) (l : List (Sighting α)) :
    (s.confront a l).2.Sublist l := by
  induction l with
  | nil => exact List.Sublist.refl []
  | cons b l ih =>
    by_cases hc : s.collide a b = true
    · by_cases hy : a.yields b = true
      · simp only [confront, hc, hy, if_true, List.Sublist.refl]
      · simp only [confront, hc, hy, if_true]
        exact ih.cons b
    · simp only [confront, hc]
      exact ih.cons_cons b

/-- A track that is left collides with nobody who is left behind it. -/
theorem confront_ok (a : Sighting α) (l : List (Sighting α)) (h : (s.confront a l).1 = true) :
    ∀ b ∈ (s.confront a l).2, s.collide a b = false := by
  induction l with
  | nil => exact fun b hb => absurd hb List.not_mem_nil
  | cons b l ih =>
    by_cases hc : s.collide a b = true
    · by_cases hy : a.yields b = true
      · -- the track has yielded, so it is not left
        simp [confront, hc, hy] at h
      · simp only [confront, hc, hy, if_true] at h ⊢
        exact ih h
    · simp only [confront, hc] at h ⊢
      intro b' hb'
      rcases List.mem_cons.1 hb' with rfl | hb'
      · exact Bool.eq_false_iff.2 hc
      · exact ih h b' hb'

theorem confront_eq_self (a : Sighting α) (l : List (Sighting α))
    (h : ∀ b ∈ l, s.collide a b = false) : s.confront a l = (true, l) := by
  induction l with
  | nil => rfl
  | cons b l ih =>
    have hb := h b List.mem_cons_self
    simp [confront, hb, ih fun b' hb' => h b' (List.mem_cons_of_mem b hb')]

/-! ### All tracks -/

-- the inductions follow `survivors`: they go on with what a comparison has left
theorem survivors_sublist (l : List (Sighting α)) : (s.survivors l).Sublist l := by
  induction l using survivors.induct (s := s) with
  | case1 => simp [survivors]
  | case2 a l r hr ih =>
    rw [survivors, if_pos hr]
    exact (ih.trans (s.confront_sublist a l)).cons_cons a
  | case3 a l r hr ih =>
    rw [survivors, if_neg hr]
    exact (ih.trans (s.confront_sublist a l)).cons a

/-- **No two survivors collide.** -/
theorem survivors_pairwise (l : List (Sighting α)) :
    (s.survivors l).Pairwise fun a b => s.collide a b = false := by
  induction l using survivors.induct (s := s) with
  | case1 => simp [survivors]
  | case2 a l r hr ih =>
    rw [survivors, if_pos hr]
    refine List.pairwise_cons.2 ⟨fun b hb => ?_, ih⟩
    -- whoever survives later was left by this comparison
    exact s.confront_ok a l hr b ((s.survivors_sublist r.2).subset hb)
  | case3 a l r hr ih =>
    rw [survivors, if_neg hr]
    exact ih

theorem survivors_eq_self (l : List (Sighting α))
    (h : l.Pairwise fun a b => s.collide a b = false) : s.survivors l = l := by
  induction l with
  | nil => simp [survivors]
  | cons a l ih =>
    obtain ⟨ha, hl⟩ := List.pairwise_cons.1 h
    rw [survivors, s.confront_eq_self a l ha, if_pos rfl, ih hl]

end RosterSettings

namespace Roster

section scalar

variable {α : Type} [Scalar α] (r : Roster α) (now : Time α)

/-- The survivors as sightings. -/
theorem suppress_sightings :
    (r.suppress now).tracks.map (Sighting.ofTrack now) =
      r.settings.survivors (r.tracks.map (Sighting.ofTrack now)) := by
  rw [suppress, List.map_map]
  refine (List.map_congr_left fun a ha => ?_).trans (List.map_id _)
  obtain ⟨t, -, rfl⟩ := List.mem_map.1 ((r.settings.survivors_sublist _).subset ha)
  rfl

theorem suppress_sublist : (r.suppress now).tracks.Sublist r.tracks := by
  have h := (r.settings.survivors_sublist (r.tracks.map (Sighting.ofTrack now))).map Sighting.track
  rwa [List.map_map, show Sighting.track ∘ Sighting.ofTrack now = id from rfl, List.map_id] at h

theorem expire_sublist : (r.expire now).tracks.Sublist r.tracks :=
  List.filter_sublist

theorem prune_sublist : (r.prune now).tracks.Sublist r.tracks :=
  ((r.expire now).suppress_sublist now).trans (r.expire_sublist now)

theorem elapsed_prune {t : Track α} (ht : t ∈ (r.prune now).tracks) :
    t.elapsed now ≤ r.settings.maxElapsed := by
  have ht' := ((r.expire now).suppress_sublist now).subset ht
  exact of_decide_eq_true (List.mem_filter.1 ht').2

theorem prune_pairwise :
    (r.prune now).tracks.Pairwise fun t u =>
      r.settings.collide (.ofTrack now t) (.ofTrack now u) = false := by
  have hsame : (r.prune now).tracks.map (Sighting.ofTrack now) =
      r.settings.survivors ((r.expire now).tracks.map (Sighting.ofTrack now)) :=
    (r.expire now).suppress_sightings now
  exact List.pairwise_map.1 (hsame ▸ r.settings.survivors_pairwise _)

theorem expire_eq_self (h : ∀ t ∈ r.tracks, t.elapsed now ≤ r.settings.maxElapsed) :
    r.expire now = r := by
  have : r.tracks.filter (fun t => decide (t.elapsed now ≤ r.settings.maxElapsed)) = r.tracks :=
    List.filter_eq_self.2 fun t ht => decide_eq_true (h t ht)
  rw [expire, this]

theorem suppress_eq_self
    (h : r.tracks.Pairwise fun t u =>
      r.settings.collide (.ofTrack now t) (.ofTrack now u) = false) :
    r.suppress now = r := by
  rw [suppress, RosterSettings.survivors_eq_self _ _ (List.pairwise_map.2 h), List.map_map,
    show Sighting.track ∘ Sighting.ofTrack now = id from rfl, List.map_id]

/-- To prune again changes nothing. -/
theorem prune_prune : (r.prune now).prune now = r.prune now := by
  have hexpire := (r.prune now).expire_eq_self now fun t ht => r.elapsed_prune now ht
  have hsuppress := (r.prune now).suppress_eq_self now (r.prune_pairwise now)
  rw [prune, hexpire, hsuppress]

end scalar

section exact

variable {α : Type} [ExactScalar α]

/-- Two tracks, the first one started before the other, that do not overlap too much as they are
published, unless they are too far apart to be merged. -/
def Apart (s : RosterSettings α) (now : Time α) (t u : Track α) : Prop :=
  ∀ o p, t.exportAt? now = some o → u.exportAt? now = some p →
    o.kinematics.pose.distance p.kinematics.pose ≤ s.mergeDistance →
      overlap o.kinematics.pose o.shape p.kinematics.pose p.shape RosterSettings.minUnionArea ≤
        if t.label = .unknown ∨ u.label = .unknown then s.minOverlapUnknown else s.minOverlap

theorem collide_eq_false_iff (s : RosterSettings α) (now : Time α) (t u : Track α) :
    s.collide (.ofTrack now t) (.ofTrack now u) = false ↔ Apart s now t u := by
  unfold RosterSettings.collide Apart
  cases ht : t.exportAt? now <;> cases hu : u.exportAt? now <;>
    simp [Sighting.ofTrack, Sighting.isUnknown, RosterSettings.overlapBound, ht, hu]

/-- **No overlapping survivors.** After pruning no track is too old and no two of them overlap too
much; they are some of the former ones, in their order, and to prune them again changes nothing. -/
theorem prune_ok (r : Roster α) (now : Time α) :
    (∀ t ∈ (r.prune now).tracks, t.elapsed now ≤ r.settings.maxElapsed) ∧
      (r.prune now).tracks.Sublist r.tracks ∧
      (r.prune now).tracks.Pairwise (Apart r.settings now) ∧
      (r.prune now).prune now = r.prune now :=
  ⟨fun _ ht => r.elapsed_prune now ht, r.prune_sublist now,
    (r.prune_pairwise now).imp (collide_eq_false_iff r.settings now _ _).1, r.prune_prune now⟩

end exact

end Roster

end TrackFusion
