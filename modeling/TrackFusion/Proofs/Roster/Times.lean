import TrackFusion.Proofs.Input.Window
import TrackFusion.Proofs.Roster.Ledger
import TrackFusion.Proofs.Track.Reachable

/-!
# Times of tracks

A track knows two times: that of its last detection, and that of its estimate. Both follow the
stamps of the batches.

* `TrackModel.time?`: the time that an estimate is valid for.
* `Track.UpTo`: nothing about a track is later than some time.
* `Roster.upTo_absorb`: so it is after a batch, if it was so before at the time of the batch.
* `Roster.Grows`: no track goes back to an earlier detection.
-/

namespace TrackFusion

variable {α : Type}

/-- The time that the estimate of a model is valid for. Without a filter there is none. -/
def TrackModel.time? : TrackModel α → Option (Time α)
  | box b => some b.estimate.time
  | point p => some p.estimate.time
  | unclassified p => some p.estimate.time
  | passThrough _ => none

variable [Scalar α]

/-! ### Estimates -/

namespace Estimate

variable {m n : ℕ}

theorem advance_time {e e' : Estimate n α} {d : Dynamics n α} {t : Time α}
    (h : e.advance d t = some e') : e'.time = t := by
  rw [advance] at h
  split at h
  · cases h
  · obtain ⟨f, -, rfl⟩ := Option.map_eq_some_iff.1 h
    rfl

theorem correct_time {e e' : Estimate n α} {y : Vec m α} {c : Mat m n α} {r : Mat m m α}
    (h : e.correct y c r = some e') : e'.time = e.time := by
  obtain ⟨f, -, rfl⟩ := Option.map_eq_some_iff.1 h
  rfl

end Estimate

theorem BoxTrack.correct?_time {b : BoxTrack α} {k : Kinematics α} {pose : Pose α}
    {e : Estimate 5 α} (h : b.correct? k pose = some e) : e.time = b.estimate.time := by
  rw [correct?] at h
  split at h
  · exact Estimate.correct_time h
  · exact Estimate.correct_time h

theorem BoxTrack.measure_time (b : BoxTrack α) (d : Detection α) (ego : Isometry α) :
    (b.measure d ego).1.estimate.time = b.estimate.time := by
  obtain ⟨pose, g, hestimate⟩ := b.measure_estimate d ego
  rw [hestimate]
  show ((b.correct? d.kinematics pose).getD b.estimate).time = b.estimate.time
  cases h : b.correct? d.kinematics pose with
  | none => rfl
  | some e => exact correct?_time h

theorem PointTrack.correct?_time {p : PointTrack α} {k : Kinematics α} {counts : Bool}
    {e : Estimate 4 α} (h : p.correct? k counts = some e) : e.time = p.estimate.time := by
  rw [correct?] at h
  split at h
  · exact Estimate.correct_time h
  · exact Estimate.correct_time h

theorem PointTrack.measure_time (p : PointTrack α) (d : Detection α) (counts : Bool) :
    (p.measure d counts).1.estimate.time = p.estimate.time := by
  show ((p.correct? d.kinematics counts).getD p.estimate).time = _
  cases h : p.correct? d.kinematics counts with
  | none => rfl
  | some e => exact correct?_time h

theorem BoxTrack.predict?_time {b b' : BoxTrack α} {t : Time α} (h : b.predict? t = some b') :
    b'.estimate.time = t := by
  obtain ⟨e, he, rfl⟩ := Option.map_eq_some_iff.1 h
  exact Estimate.advance_time he

theorem PointTrack.predict?_time {p p' : PointTrack α} {t : Time α} (h : p.predict? t = some p') :
    p'.estimate.time = t := by
  obtain ⟨e, he, rfl⟩ := Option.map_eq_some_iff.1 h
  exact Estimate.advance_time he

namespace TrackModel

theorem measure_time? (m : TrackModel α) (d : Detection α) (t : Time α) (ego : Isometry α) :
    (m.measure d t ego).1.time? = m.time? := by
  cases m with
  | box b => exact congrArg some (b.measure_time d ego)
  | point p => exact congrArg some (p.measure_time d true)
  | unclassified p => exact congrArg some (p.measure_time d false)
  | passThrough p => rfl

theorem limit_time? (m : TrackModel α) : m.limit.time? = m.time? := by
  cases m <;> rfl

theorem predict?_time? {m m' : TrackModel α} {t : Time α} (h : m.predict? t = some m') :
    ∀ u, m'.time? = some u → u = t := by
  intro u hu
  cases m with
  | box b =>
    obtain ⟨b', hb, rfl⟩ := Option.map_eq_some_iff.1 h
    rw [← Option.some.inj hu]
    exact BoxTrack.predict?_time hb
  | point p =>
    obtain ⟨p', hp, rfl⟩ := Option.map_eq_some_iff.1 h
    rw [← Option.some.inj hu]
    exact PointTrack.predict?_time hp
  | unclassified p =>
    obtain ⟨p', hp, rfl⟩ := Option.map_eq_some_iff.1 h
    rw [← Option.some.inj hu]
    exact PointTrack.predict?_time hp
  | passThrough p =>
    cases h
    cases hu

theorem spawn_time? (k : TrackKind) (t : Time α) (d : Detection α) (l : Label) :
    ∀ u, (k.spawn t d l).time? = some u → u = t := by
  intro u hu
  unfold TrackKind.spawn at hu
  split at hu
  · exact (Option.some.inj hu).symm
  · split at hu
    · exact (Option.some.inj hu).symm
    · cases hu
    · exact (Option.some.inj hu).symm

end TrackModel

/-! ### Tracks -/

/-- Nothing about a track is later than some time. -/
structure Track.UpTo (t : Track α) (now : Time α) : Prop where
  measured : t.lastMeasured ≤ now
  estimate : ∀ u, t.model.time? = some u → u ≤ now

namespace Track

theorem upTo_spawn (id : TrackId) (d : Detection α) (kind : TrackKind) {now : Time α}
    (hnow : now ≤ now) : (spawn id now d kind).UpTo now := by
  refine ⟨hnow, fun u hu => ?_⟩
  rw [TrackModel.spawn_time? kind now d d.label u hu]
  exact hnow

theorem upTo_carried {t : Track α} {now : Time α} (h : t.UpTo now) (hnow : now ≤ now) :
    (t.carried now).UpTo now := by
  refine ⟨by rw [carried_lastMeasured]; exact h.measured, ?_⟩
  rw [carried, predict?]
  cases hm : t.model.predict? now with
  | none => exact h.estimate
  | some m =>
    intro u hu
    rw [TrackModel.predict?_time? hm u (m.limit_time? ▸ hu)]
    exact hnow

theorem upTo_measure {t : Track α} {now : Time α} (h : t.UpTo now) (hnow : now ≤ now)
    (d : Detection α) (ego : Isometry α) : (t.measure d now ego).1.UpTo now :=
  ⟨hnow, fun u hu => h.estimate u (t.model.measure_time? d now ego ▸ hu)⟩

theorem upTo_miss {t : Track α} {now : Time α} (h : t.UpTo now) : t.miss.UpTo now :=
  ⟨h.measured, h.estimate⟩

end Track

/-! ### Rosters -/

namespace Roster

variable {r : Roster α} {b : Batch α}

theorem upTo_followed {t : Track α} (h : t.UpTo b.stamp) (hnow : b.stamp ≤ b.stamp)
    (ego : Isometry α) (direct : IndexMap) (i : ℕ) : (followed b ego direct i t).UpTo b.stamp := by
  have hcarried := Track.upTo_carried h hnow
  unfold followed updateTrack
  split
  · exact Track.upTo_measure hcarried hnow _ ego
  · exact Track.upTo_miss hcarried

/-- **Nothing is later than the batch** after it, if nothing was before it. -/
theorem upTo_absorb (h : ∀ t ∈ r.tracks, t.UpTo b.stamp) (hnow : b.stamp ≤ b.stamp)
    (ego : Isometry α) (p : Pairing) : ∀ t ∈ (r.absorb b ego p).tracks, t.UpTo b.stamp := by
  intro t' ht'
  rcases mem_absorb ht' with ⟨t, ht, i, rfl⟩ | ⟨k, d, rfl⟩
  · exact upTo_followed (h t ht) hnow ego p.direct i
  · exact Track.upTo_spawn _ d _ hnow

/-- A later state of a roster: no track goes back to an earlier detection, and new ones have new
names. -/
structure Grows (r r' : Roster α) : Prop where
  stream : r'.ids.stream = r.ids.stream
  used : r.ids.used ≤ r'.ids.used
  tracks : ∀ t' ∈ r'.tracks, (∃ t ∈ r.tracks, t.id = t'.id ∧ t.lastMeasured ≤ t'.lastMeasured) ∨
    ∃ k, r.ids.used ≤ k ∧ t'.id = r.ids.stream.nth k

theorem Grows.prune {r r' : Roster α} (h : Grows r r') (now : Time α) : Grows r (r'.prune now) :=
  ⟨h.stream, h.used, fun t' ht' => h.tracks t' ((r'.prune_sublist now).subset ht')⟩

theorem Grows.absorb (h : ∀ t ∈ r.tracks, t.UpTo b.stamp)
    (hself : ∀ t ∈ r.tracks, t.lastMeasured ≤ t.lastMeasured) (ego : Isometry α) (p : Pairing) :
    Grows r (r.absorb b ego p) := by
  refine ⟨by rw [absorb_eq], by simp [absorb_eq], fun t' ht' => ?_⟩
  rcases mem_absorb ht' with ⟨t, ht, i, rfl⟩ | ⟨k, d, rfl⟩
  · refine .inl ⟨t, ht, (followed_id b ego p.direct i t).symm, ?_⟩
    unfold followed updateTrack
    split
    · exact (h t ht).measured
    · rw [(t.miss_missed b.stamp).lastMeasured]
      exact hself t ht
  · exact .inr ⟨r.ids.used + k, Nat.le_add_right .., rfl⟩

variable [OrderedScalar α]

theorem Grows.trans {r r' r'' : Roster α} (h : Grows r r') (h' : Grows r' r'') : Grows r r'' := by
  refine ⟨h'.stream.trans h.stream, h.used.trans h'.used, fun t'' ht'' => ?_⟩
  rcases h'.tracks t'' ht'' with ⟨t', ht', hid, hle⟩ | ⟨k, hk, hnth⟩
  · rcases h.tracks t' ht' with ⟨t, ht, hid', hle'⟩ | ⟨k, hk, hnth⟩
    · exact .inl ⟨t, ht, hid'.trans hid, Time.le_trans hle' hle⟩
    · exact .inr ⟨k, hk, hid ▸ hnth⟩
  · exact .inr ⟨k, h.used.trans hk, h.stream ▸ hnth⟩

end Roster

theorem Track.UpTo.trans [OrderedScalar α] {t : Track α} {now later : Time α} (h : t.UpTo now)
    (hle : now ≤ later) : t.UpTo later :=
  ⟨Time.le_trans h.measured hle, fun u hu => Time.le_trans (h.estimate u hu) hle⟩

end TrackFusion
