import TrackFusion.Proofs.Displacement.Tracks
import TrackFusion.Proofs.Association.Table
import TrackFusion.Association.Basic
import TrackFusion.Roster.Basic

/-!
# Rosters of displaced tracks

* `Association.assign_displace`: the same pairs are chosen.
* `RosterSettings.survivors_displace`: the same tracks yield.
* `Roster.absorb_displace`, `prune_displace`: what a batch and what pruning does to the tracks.
* `Roster.confirmedAt_displace`, `tentativeAt_displace`: what is published.
-/

namespace TrackFusion

variable {α : Type} [ExactScalar α] (δ : Displacement α)

/-! ### Scores -/

namespace Association

theorem pairScore_displace (g : Gates α) (o : TrackedObject α) (d : Detection α) :
    pairScore g (o.displace δ) (d.displace δ) = pairScore g o d := by
  have hheading : ∀ (maxRad : α) (p q : Pose α),
      headingFits maxRad (p.displace δ) (q.displace δ) = headingFits maxRad p q :=
    fun _ _ _ => rfl
  simp only [pairScore, TrackedObject.displace_label, TrackedObject.displace_kinematics,
    TrackedObject.displace_shape, Detection.displace_label, Detection.displace_kinematics,
    Detection.displace_shape, Kinematics.displace_pose, Pose.displace_distance, hheading,
    overlap_displace]

variable (a : Association α) (b : Batch α) (tracks : List (Track α))

/-- Tables that have the same entries lead to the same pairs. -/
theorem assign_congr (solver : Solver) {m n m' n' : ℕ} (hm : m = m') (hn : n = n')
    {s : Mat m n α} {s' : Mat m' n' α} (h : ∀ i j, s i j = s' (i.cast hm) (j.cast hn)) :
    assign solver s = assign solver s' := by
  subst hm
  subst hn
  rw [Mat.ext h]

theorem assign_displace :
    assign a.solver (a.scores (b.displace δ) (tracks.map (Track.displace δ))) =
      assign a.solver (a.scores b tracks) := by
  -- the two tables have the same numbers of rows and columns, though not by definition
  have hm : (tracks.map (Track.displace δ)).length = tracks.length := List.length_map _
  have hn : (b.displace δ).objects.length = b.objects.length := List.length_map _
  refine assign_congr a.solver hm hn fun i j => ?_
  have htrack : (tracks.map (Track.displace δ)).get i = (tracks.get (i.cast hm)).displace δ :=
    List.getElem_map _
  have hdetection : (b.displace δ).objects.get j = (b.objects.get (j.cast hn)).displace δ :=
    List.getElem_map _
  rw [scores_apply, scores_apply, htrack, hdetection, Batch.displace_stamp,
    Track.exportAt?_displace]
  cases (tracks.get (i.cast hm)).exportAt? b.stamp with
  | none => rfl
  | some o => exact pairScore_displace δ a.gates o _

end Association

/-! ### Suppression -/

def Sighting.displace (s : Sighting α) : Sighting α :=
  ⟨s.track.displace δ, s.object?.map (TrackedObject.displace δ)⟩

theorem Sighting.ofTrack_displace (now : Time α) (t : Track α) :
    ofTrack (now.displace δ) (t.displace δ) = (ofTrack now t).displace δ := by
  rw [ofTrack, Track.exportAt?_displace]
  rfl

namespace RosterSettings

variable (s : RosterSettings α)

theorem collide_displace (a b : Sighting α) :
    s.collide (a.displace δ) (b.displace δ) = s.collide a b := by
  obtain ⟨t, o⟩ := a
  obtain ⟨u, q⟩ := b
  have hbound : s.overlapBound (Sighting.displace δ ⟨t, o⟩) (Sighting.displace δ ⟨u, q⟩) =
      s.overlapBound ⟨t, o⟩ ⟨u, q⟩ := rfl
  cases o with
  | none => rfl
  | some o =>
    cases q with
    | none => rfl
    | some q =>
      simp only [collide, hbound]
      simp only [Sighting.displace, Option.map_some, TrackedObject.displace_kinematics,
        TrackedObject.displace_shape, Kinematics.displace_pose, Pose.displace_distance,
        overlap_displace]

theorem confront_displace (a : Sighting α) (rest : List (Sighting α)) :
    s.confront (a.displace δ) (rest.map (Sighting.displace δ)) =
      ((s.confront a rest).1, (s.confront a rest).2.map (Sighting.displace δ)) := by
  induction rest with
  | nil => rfl
  | cons b rest ih =>
    have hyields : (a.displace δ).yields (b.displace δ) = a.yields b := rfl
    simp only [List.map_cons, confront, collide_displace, hyields, ih]
    split
    · split <;> rfl
    · rfl

/-- **The same tracks yield.** -/
theorem survivors_displace (l : List (Sighting α)) :
    s.survivors (l.map (Sighting.displace δ)) = (s.survivors l).map (Sighting.displace δ) := by
  fun_induction survivors s l with
  | case1 => exact survivors.eq_1 s
  | case2 a rest r hleft ih =>
    rw [List.map_cons, survivors]
    simp only [confront_displace]
    rw [if_pos hleft, ih, List.map_cons]
  | case3 a rest r hgone ih =>
    rw [List.map_cons, survivors]
    simp only [confront_displace]
    rw [if_neg hgone, ih]

end RosterSettings

/-! ### Rosters -/

namespace Roster

/-- The displaced tracks, whose names are those of another stream. -/
def displace (ids' : IdStream) (r : Roster α) : Roster α :=
  { r with tracks := r.tracks.map (Track.displace δ), ids := ⟨ids', r.ids.used⟩ }

variable {ids' : IdStream} (r : Roster α) (b : Batch α) (now : Time α) (ego : Isometry α)

theorem predict_displace :
    (r.displace δ ids').predict (now.displace δ) = (r.predict now).displace δ ids' := by
  simp only [predict, displace, List.map_map, Function.comp_def, Track.predict?_displace,
    Option.getD_map]

theorem updateTrack_displace (j? : Option ℕ) (t : Track α) :
    updateTrack (b.displace δ) (ego.displace δ) j? (t.displace δ) =
      (updateTrack b ego j? t).displace δ := by
  have hbind : (j?.bind fun j => (b.displace δ).objects[j]?) =
      (j?.bind fun j => b.objects[j]?).map (Detection.displace δ) := by
    cases j? with
    | none => rfl
    | some j => exact List.getElem?_map
  rw [updateTrack, updateTrack, hbind]
  cases j?.bind fun j => b.objects[j]? with
  | none => rfl
  | some d => exact congrArg Prod.fst (t.measure_displace δ d b.stamp ego)

theorem update_displace (direct : IndexMap) :
    (r.displace δ ids').update (b.displace δ) (ego.displace δ) direct =
      (r.update b ego direct).displace δ ids' := by
  have htracks : (r.tracks.map (Track.displace δ)).mapIdx (fun i t =>
        updateTrack (b.displace δ) (ego.displace δ) (direct.get? i) t) =
      (r.tracks.mapIdx fun i t => updateTrack b ego (direct.get? i) t).map (Track.displace δ) := by
    refine List.ext_getElem (by simp) fun i h h' => ?_
    simp [updateTrack_displace]
  rw [update, update, displace, displace, htracks]

theorem unmatched_displace (reverse : IndexMap) :
    unmatched (b.displace δ) reverse = (unmatched b reverse).map (Detection.displace δ) := by
  rw [unmatched, unmatched, Batch.displace_objects, List.zipIdx_map, List.filterMap_map,
    List.map_filterMap]
  refine congrArg (fun f => List.filterMap f b.objects.zipIdx) (funext fun p => ?_)
  obtain ⟨d, j⟩ := p
  cases h : reverse.contains j <;> simp [h]

section names

variable {r} (hids : r.ids.stream.Renamed δ ids')

include hids

theorem start_displace (d : Detection α) :
    (r.displace δ ids').start (now.displace δ) (d.displace δ) =
      (r.start now d).displace δ ids' := by
  simp only [start, IdSupply.fresh, displace, hids r.ids.used, Track.spawn_displace,
    Detection.displace_label, List.map_append]
  rfl

theorem spawn_displace (reverse : IndexMap) :
    (r.displace δ ids').spawn (b.displace δ) reverse = (r.spawn b reverse).displace δ ids' := by
  rw [spawn, spawn, unmatched_displace, Batch.displace_stamp]
  -- each new track changes the supply of names for the next one, so the roster is general
  generalize unmatched b reverse = ds
  induction ds generalizing r with
  | nil => rfl
  | cons d ds ih =>
    have hnext : (r.start b.stamp d).ids.stream.Renamed δ ids' := hids
    rw [List.map_cons, List.foldl_cons, List.foldl_cons, start_displace δ b.stamp hids, ih hnext]

/-- **A displaced batch does the same to displaced tracks.** -/
theorem absorb_displace (p : Pairing) :
    (r.displace δ ids').absorb (b.displace δ) (ego.displace δ) p =
      (r.absorb b ego p).displace δ ids' := by
  have hupdated : ((r.predict b.stamp).update b ego p.direct).ids.stream.Renamed δ ids' := hids
  rw [absorb, absorb, Batch.displace_stamp, predict_displace, update_displace,
    spawn_displace δ b hupdated]

end names

theorem expire_displace :
    (r.displace δ ids').expire (now.displace δ) = (r.expire now).displace δ ids' := by
  simp only [expire, displace, List.filter_map, Function.comp_def, Track.elapsed_displace]

theorem suppress_displace :
    (r.displace δ ids').suppress (now.displace δ) = (r.suppress now).displace δ ids' := by
  have hsightings : (r.tracks.map (Track.displace δ)).map (Sighting.ofTrack (now.displace δ)) =
      (r.tracks.map (Sighting.ofTrack now)).map (Sighting.displace δ) := by
    simp only [List.map_map, Function.comp_def, Sighting.ofTrack_displace]
  rw [suppress, suppress, displace, displace]
  simp only [hsightings, RosterSettings.survivors_displace]
  rw [List.map_map, List.map_map]
  rfl

/-- **Displaced tracks are pruned alike.** -/
theorem prune_displace :
    (r.displace δ ids').prune (now.displace δ) = (r.prune now).displace δ ids' := by
  rw [prune, prune, expire_displace, suppress_displace]

/-- What is published of the tracks that some test chooses, if the test knows of no place. -/
theorem exportedIf_displace {test : Track α → Bool} (htest : ∀ t, test (t.displace δ) = test t)
    (tracks : List (Track α)) :
    (((tracks.map (Track.displace δ)).filter test).filterMap fun t =>
        t.exportAt? (now.displace δ)) =
      ((tracks.filter test).filterMap fun t => t.exportAt? now).map (TrackedObject.displace δ) := by
  simp only [List.filter_map, List.filterMap_map, List.map_filterMap, Function.comp_def, htest,
    Track.exportAt?_displace]

theorem confirmedAt_displace :
    (r.displace δ ids').confirmedAt (now.displace δ) =
      (r.confirmedAt now).map (TrackedObject.displace δ) :=
  exportedIf_displace δ now (fun _ => rfl) r.tracks

theorem tentativeAt_displace :
    (r.displace δ ids').tentativeAt (now.displace δ) =
      (r.tentativeAt now).map (TrackedObject.displace δ) :=
  exportedIf_displace δ now (fun _ => rfl) r.tracks

end Roster

end TrackFusion
