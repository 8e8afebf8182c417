import Mathlib
import TrackFusion.Track.Kind

/-!
# Models that can be reached

A model is carried on in time, corrected by detections and cut to its limits, in any order.

* `TrackModel.All`: what is said about the estimate of a model, whichever kind it is.
* `TrackModel.Reaches`: what can become of a model.
* `BoxTrack.Keeps`, `PointTrack.Keeps`: what each of the three steps keeps.
* `TrackModel.Reaches.all`: it holds of all that can be reached.
-/

namespace TrackFusion

variable {α : Type}

/-- What holds of the estimate of a model, if there is one. -/
def TrackModel.All (P : BoxTrack α → Prop) (Q : PointTrack α → Prop) : TrackModel α → Prop
  | box b => P b
  | point p => Q p
  | unclassified p => Q p
  | passThrough _ => True

theorem TrackModel.All.imp {P P' : BoxTrack α → Prop} {Q Q' : PointTrack α → Prop}
    {m : TrackModel α} (h : m.All P Q) (hP : ∀ b, P b → P' b) (hQ : ∀ p, Q p → Q' p) :
    m.All P' Q' := by
  cases m with
  | box b => exact hP b h
  | point p => exact hQ p h
  | unclassified p => exact hQ p h
  | passThrough p => trivial

/-! ### Detections -/

theorem Estimate.mapMean_mapMean {n : ℕ} (e : Estimate n α) (g g' : Vec n α → Vec n α) :
    (e.mapMean g).mapMean g' = e.mapMean (g' ∘ g) := rfl

variable [Scalar α]

namespace BoxTrack

/-- A detection moves the estimate once it is corrected, if it can be. -/
theorem measure_estimate (b : BoxTrack α) (d : Detection α) (ego : Isometry α) :
    ∃ pose g, (b.measure d ego).1.estimate =
      ((b.correct? d.kinematics pose).getD b.estimate).mapMean g := by
  -- the centre may move back with the box
  have hmove : ∀ (moves : Bool) (e : Estimate 5 α) g v,
      ∃ g', (if moves then TurnRate.shift (e.mapMean g) v else e.mapMean g) = e.mapMean g' := by
    intro moves e g v
    cases moves with
    | true =>
      rw [if_pos rfl]
      exact ⟨_, e.mapMean_mapMean g _⟩
    | false => exact ⟨g, rfl⟩
  cases ha : b.profile.accepts d.shape (d.shape.enclosingBox d.kinematics.pose).2 with
  | true =>
    simp only [measure, ha, if_true]
    exact ⟨_, hmove _ _ _ _⟩
  | false =>
    simp only [measure, ha]
    exact ⟨_, _, rfl⟩

theorem measure_profile (b : BoxTrack α) (d : Detection α) (ego : Isometry α) :
    (b.measure d ego).1.profile = b.profile := by
  unfold measure
  dsimp only
  split <;> rfl

end BoxTrack

/-! ### Steps -/

/-- What holds after each step if it held before, for detections of some sort. -/
structure BoxTrack.Keeps (D : Detection α → Prop) (P : BoxTrack α → Prop) : Prop where
  predict : ∀ {b b' : BoxTrack α} {t : Time α}, P b → b.predict? t = some b' → P b'
  measure : ∀ {b : BoxTrack α} {d : Detection α} (ego : Isometry α), P b → D d →
    P (b.measure d ego).1
  limit : ∀ {b : BoxTrack α}, P b → P b.limit

/-- What holds after each step if it held before, for detections of some sort. -/
structure PointTrack.Keeps (D : Detection α → Prop) (Q : PointTrack α → Prop) : Prop where
  predict : ∀ {p p' : PointTrack α} {t : Time α}, Q p → p.predict? t = some p' → Q p'
  measure : ∀ {p : PointTrack α} {d : Detection α} (velocityCounts : Bool), Q p → D d →
    Q (p.measure d velocityCounts).1
  limit : ∀ {p : PointTrack α}, Q p → Q p.limit

variable {D : Detection α → Prop}

/-- The profile of a track stays. -/
theorem BoxTrack.keeps_profile (R : BoxProfile α → Prop) : Keeps D fun b => R b.profile where
  predict := by
    intro b b' t h hb'
    obtain ⟨e, -, rfl⟩ := Option.map_eq_some_iff.1 hb'
    exact h
  measure := by
    intro b d ego h _
    rw [b.measure_profile]
    exact h
  limit h := h

theorem PointTrack.keeps_profile (R : PointProfile α → Prop) : Keeps D fun p => R p.profile where
  predict := by
    intro p p' t h hp'
    obtain ⟨e, -, rfl⟩ := Option.map_eq_some_iff.1 hp'
    exact h
  measure _ h _ := h
  limit h := h

namespace TrackModel

/-- What can become of a model, with detections of some sort. One that cannot be carried on to a
time stays as it is. -/
inductive Reaches (D : Detection α → Prop) (m₀ : TrackModel α) : TrackModel α → Prop
  | start : Reaches D m₀ m₀
  | predict {m m' : TrackModel α} (h : Reaches D m₀ m) {t : Time α} (hm' : m.predict? t = some m') :
      Reaches D m₀ m'
  | measure {m : TrackModel α} (h : Reaches D m₀ m) {d : Detection α} (hd : D d) (t : Time α)
      (ego : Isometry α) : Reaches D m₀ (m.measure d t ego).1
  | limit {m : TrackModel α} (h : Reaches D m₀ m) : Reaches D m₀ m.limit

variable {P : BoxTrack α → Prop} {Q : PointTrack α → Prop} {m m₀ m' : TrackModel α}

theorem All.predict? (hP : BoxTrack.Keeps D P) (hQ : PointTrack.Keeps D Q) (h : m.All P Q)
    {t : Time α} (hm' : m.predict? t = some m') : m'.All P Q := by
  cases m with
  | box b =>
    obtain ⟨b', hb', rfl⟩ := Option.map_eq_some_iff.1 hm'
    exact hP.predict h hb'
  | point p =>
    obtain ⟨p', hp', rfl⟩ := Option.map_eq_some_iff.1 hm'
    exact hQ.predict h hp'
  | unclassified p =>
    obtain ⟨p', hp', rfl⟩ := Option.map_eq_some_iff.1 hm'
    exact hQ.predict h hp'
  | passThrough p =>
    cases hm'
    trivial

theorem All.measure (hP : BoxTrack.Keeps D P) (hQ : PointTrack.Keeps D Q) (h : m.All P Q)
    {d : Detection α} (hd : D d) (t : Time α) (ego : Isometry α) :
    (m.measure d t ego).1.All P Q := by
  cases m with
  | box b => exact hP.measure ego h hd
  | point p => exact hQ.measure true h hd
  | unclassified p => exact hQ.measure false h hd
  | passThrough p => trivial

theorem All.limit (hP : BoxTrack.Keeps D P) (hQ : PointTrack.Keeps D Q) (h : m.All P Q) :
    m.limit.All P Q := by
  cases m with
  | box b => exact hP.limit h
  | point p => exact hQ.limit h
  | unclassified p => exact hQ.limit h
  | passThrough p => trivial

/-- **What every step keeps holds of all that can be reached.** -/
theorem Reaches.all (h : m₀.Reaches D m) (hP : BoxTrack.Keeps D P) (hQ : PointTrack.Keeps D Q)
    (h₀ : m₀.All P Q) : m.All P Q := by
  induction h with
  | start => exact h₀
  | predict _ hm' ih => exact ih.predict? hP hQ hm'
  | measure _ hd t ego ih => exact ih.measure hP hQ hd t ego
  | limit _ ih => exact ih.limit hP hQ

end TrackModel

end TrackFusion
