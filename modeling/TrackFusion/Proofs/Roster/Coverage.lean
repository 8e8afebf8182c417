import TrackFusion.Proofs.Roster.Ranking
import TrackFusion.Proofs.Displacement.Geometry
import TrackFusion.Proofs.Geometry.Hulls

/-!
# Whether what stays covers what goes

A track that goes has lost to one that was still there, but that one may lose in its turn, later in
the same pass. So it is only along several overlaps that every track that goes leads to one that
stays.

* `Roster.losesTo_wellFounded`: tracks do not lose to each other in circles.
* `Roster.suppress_covered`: what a track that goes leads to.
* `Roster.row`: three cars in a row, of which only the last one stays. The first one is too far from
  it to be its double.
-/

namespace TrackFusion

/-- A track that yields to the next one makes no difference. -/
theorem RosterSettings.survivors_cons_of_yields {α : Type} [Scalar α] (s : RosterSettings α)
    {a b : Sighting α} {l : List (Sighting α)} (hc : s.collide a b = true)
    (hy : a.yields b = true) : s.survivors (a :: b :: l) = s.survivors (b :: l) := by
  simp [survivors.eq_2 s a, confront, hc, hy]

/-! ### Cars on a line -/

/-- The corners of a car at the origin. -/
theorem footprint_car : footprint (⟨0, 0, 0, 0⟩ : Pose ℝ) (.box ⟨4, 2, 1⟩) =
    [⟨-2, -1⟩, ⟨2, -1⟩, ⟨2, 1⟩, ⟨-2, 1⟩] := by
  have hsin : Scalar.sin (0 : ℝ) = 0 := Real.sin_zero
  have hcos : Scalar.cos (0 : ℝ) = 1 := Real.cos_zero
  have hadd : ∀ a b c d : ℝ, (⟨a, b⟩ : Point ℝ) + ⟨c, d⟩ = ⟨a + c, b + d⟩ := fun _ _ _ _ => rfl
  have hbeq : ∀ a b c d : ℝ, ((⟨a, b⟩ : Point ℝ) == ⟨c, d⟩) = ((a == c) && (b == d)) :=
    fun _ _ _ _ => rfl
  have hcorners : ((Shape.box ⟨4, 2, 1⟩ : Shape ℝ).outline.map fun p =>
      p.rotate (⟨0, 0, 0, 0⟩ : Pose ℝ).yaw + (⟨0, 0, 0, 0⟩ : Pose ℝ).point) =
      [⟨2, 1⟩, ⟨-2, 1⟩, ⟨-2, -1⟩, ⟨2, -1⟩] := by
    norm_num [Shape.outline, rectangle, Pose.point, Point.rotate, hsin, hcos, hadd]
  have hsorted : Polygon.sorted [(⟨2, 1⟩ : Point ℝ), ⟨-2, 1⟩, ⟨-2, -1⟩, ⟨2, -1⟩] =
      [⟨-2, -1⟩, ⟨-2, 1⟩, ⟨2, -1⟩, ⟨2, 1⟩] := by
    norm_num [Polygon.sorted, List.mergeSort, List.MergeSort.Internal.splitInTwo, List.merge,
      Point.order_bne_gt, List.eraseReps, List.eraseRepsBy, List.eraseRepsBy.loop, hbeq]
  rw [footprint, hcorners, Polygon.convexHull, hsorted]
  norm_num [Polygon.chain, Polygon.push, Point.cross]

/-- Two cars that follow each other share a quarter of their length. -/
theorem overlap_car_next (x : ℝ) :
    overlap (⟨x, 0, 0, 0⟩ : Pose ℝ) (.box ⟨4, 2, 1⟩) ⟨x + 3, 0, 0, 0⟩ (.box ⟨4, 2, 1⟩)
      RosterSettings.minUnionArea = 1 / 7 := by
  have hadd : ∀ a b c d : ℝ, (⟨a, b⟩ : Point ℝ) + ⟨c, d⟩ = ⟨a + c, b + d⟩ := fun _ _ _ _ => rfl
  have hsub : ∀ a b c d : ℝ, (⟨a, b⟩ : Point ℝ) - ⟨c, d⟩ = ⟨a - c, b - d⟩ := fun _ _ _ _ => rfl
  have harea : Polygon.area [(⟨-2, -1⟩ : Point ℝ), ⟨2, -1⟩, ⟨2, 1⟩, ⟨-2, 1⟩] = 8 := by
    norm_num [Polygon.area, Polygon.signedArea, Polygon.edges]
  have hshared : Polygon.sharedArea [(⟨-2, -1⟩ : Point ℝ), ⟨2, -1⟩, ⟨2, 1⟩, ⟨-2, 1⟩]
      ([(⟨-2, -1⟩ : Point ℝ), ⟨2, -1⟩, ⟨2, 1⟩, ⟨-2, 1⟩].map
        (Point.displace ⟨0, 3, 0, 0, id⟩)) = 2 := by
    norm_num [Polygon.sharedArea, Polygon.clip, Polygon.clipLine, Polygon.clipSide, Polygon.edges,
      Point.cross, Polygon.meet?, Point.displace]
    norm_num [hadd, hsub, Point.scale, Polygon.area, Polygon.signedArea, Polygon.edges]
  -- both are displaced by `x`, and the second one by three metres more
  have hfirst : (⟨x, 0, 0, 0⟩ : Pose ℝ) = Pose.displace ⟨0, x, 0, 0, id⟩ ⟨0, 0, 0, 0⟩ := by
    simp [Pose.displace]
  have hsecond : (⟨x + 3, 0, 0, 0⟩ : Pose ℝ) = Pose.displace ⟨0, x, 0, 0, id⟩ ⟨3, 0, 0, 0⟩ := by
    simp [Pose.displace, add_comm]
  have hthree : (⟨3, 0, 0, 0⟩ : Pose ℝ) = Pose.displace ⟨0, 3, 0, 0, id⟩ ⟨0, 0, 0, 0⟩ := by
    simp [Pose.displace]
  rw [hfirst, hsecond, overlap_displace, hthree, overlap, footprint_displace, footprint_car]
  simp only [Polygon.area_displace, harea, hshared]
  norm_num [negligibleArea, RosterSettings.minUnionArea]

namespace Roster

section chains

variable {α : Type} [Scalar α] (r : Roster α) (now : Time α)

/-- **Tracks do not lose to each other in circles**: each one ranks lower than the next. -/
theorem losesTo_wellFounded : WellFounded (Function.swap (r.LosesTo now)) := by
  have htrans : IsTrans _ (InvImage (· < ·) r.rank) := ⟨fun _ _ _ => lt_trans⟩
  have hirrefl : Std.Irrefl (InvImage (· < ·) r.rank) := ⟨fun _ => lt_irrefl _⟩
  have hwf : WellFounded (InvImage (· < ·) r.rank) := Finite.wellFounded_of_trans_of_irrefl _
  exact Subrelation.wf (fun h => h.2) hwf

/-- Who is not kept leads to who is, if every one that is not kept loses to somebody. -/
theorem exists_kept {kept : List (Fin r.tracks.length)}
    (hout : ∀ i, i ∉ kept → ∃ j, r.LosesTo now i j) {i : Fin r.tracks.length} (hi : i ∉ kept) :
    ∃ j ∈ kept, Relation.TransGen (r.LosesTo now) i j := by
  induction i using (r.losesTo_wellFounded now).induction with
  | _ i ih =>
    obtain ⟨j, hij⟩ := hout i hi
    by_cases hj : j ∈ kept
    · exact ⟨j, hj, .single hij⟩
    · obtain ⟨k, hk, hjk⟩ := ih j hij hj
      exact ⟨k, hk, .head hij hjk⟩

/-- **What stays after a suppression covers what goes, along overlaps.** A track that goes has lost
to one that stays, or to one that lost in its turn to another, behind both of them. From one loser
to the next the ranks rise, and the last one stays. Where nobody loses to a track behind it, every
track that goes has lost to one that stays. -/
theorem suppress_covered (r : Roster α) (now : Time α) :
    ∃ kept : List (Fin r.tracks.length), kept.Sublist (List.finRange _) ∧
      (r.suppress now).tracks = kept.map r.tracks.get ∧
      (∀ i, i ∉ kept → ∃ j, r.LosesTo now i j ∧ (j ∈ kept ∨ ∃ k, i < k ∧ r.LosesTo now j k)) ∧
      (∀ i, i ∉ kept → ∃ j ∈ kept, Relation.TransGen (r.LosesTo now) i j) ∧
      ((∀ i j, r.LosesTo now i j → j < i) → ∀ i, i ∉ kept → ∃ j ∈ kept, r.LosesTo now i j) := by
  obtain ⟨kept, hsub, hsame, hout⟩ := r.suppress_places now
  refine ⟨kept, hsub, hsame, hout, fun i hi => ?_, fun hfront i hi => ?_⟩
  · exact r.exists_kept now (fun i hi => (hout i hi).imp fun _ h => h.1) hi
  · obtain ⟨j, hij, hj | ⟨k, hik, hjk⟩⟩ := hout i hi
    · exact ⟨j, hj, hij⟩
    · -- the winner has lost to one behind both, which is excluded here
      exact absurd (hik.trans (hfront j k hjk)) (hfront i j hij).not_gt

end chains

/-! ### Three cars in a row -/

/-- A car at rest on the axis, with its number of detections. It is tracked as it is seen. -/
noncomputable def parkedCar (n : ℕ) (x : ℝ) (hits : ℕ) : Track ℝ where
  id := IdStream.counting.nth n
  kind := .passThrough
  classes := [⟨.car, 1⟩]
  existence := 1
  model := .passThrough
    { detection :=
        { existence := 1
          classes := [⟨.car, 1⟩]
          kinematics := { Kinematics.ofPose ⟨x, 0, 0, 0⟩ with poseCov := 1, hasPoseCov := true }
          shape := .box ⟨4.0, 2.0, 1.0⟩ }
      measuredAt := ⟨0⟩ }
  missStreak := 0
  misses := 0
  hits := hits
  lastMeasured := ⟨0⟩

/-- Three cars in a row, each of which overlaps the next. The later one comes, the more detections
it has had. -/
noncomputable def row : Roster ℝ where
  settings := .usual
  kinds := .usual
  tracks := [parkedCar 0 0 1, parkedCar 1 3 2, parkedCar 2 6 3]
  ids := ⟨.counting, 3⟩

section row

variable (n m : ℕ) (x y : ℝ) (hits hits' : ℕ)

theorem label_parkedCar : (parkedCar n x hits).label = .car := by
  simp [Track.label, parkedCar, mostLikely, Classification.beats]

theorem exportAt?_parkedCar :
    (parkedCar n x hits).exportAt? ⟨0⟩ = some
      ⟨IdStream.counting.nth n, 1, [⟨.car, 1⟩],
        { Kinematics.ofPose ⟨x, 0, 0, 0⟩ with poseCov := 1, hasPoseCov := true },
        .box ⟨4, 2, 1⟩⟩ := by
  norm_num [Track.exportAt?, parkedCar, TrackModel.stateAt?, PassThrough.stateAt,
    Kinematics.ofPose, Track.properVariance]

theorem overlaps_parkedCar_iff :
    Overlaps RosterSettings.usual ⟨0⟩ (parkedCar n x hits) (parkedCar m y hits') ↔
      |x - y| ≤ 5 ∧ 1 / 10 < overlap (⟨x, 0, 0, 0⟩ : Pose ℝ) (.box ⟨4, 2, 1⟩) ⟨y, 0, 0, 0⟩
        (.box ⟨4, 2, 1⟩) RosterSettings.minUnionArea := by
  have hdist : Pose.distance (⟨x, 0, 0, 0⟩ : Pose ℝ) ⟨y, 0, 0, 0⟩ = |x - y| := by
    show Real.sqrt ((x - y) ^ 2 + (0 - 0) ^ 2) = |x - y|
    rw [sub_self, zero_pow two_ne_zero, add_zero, Real.sqrt_sq_eq_abs]
  simp only [Overlaps, exportAt?_parkedCar, label_parkedCar, reduceCtorEq, or_self, if_false]
  norm_num [RosterSettings.usual, Kinematics.ofPose, hdist]

variable {n m x y hits hits'} in
/-- Of two cars the one with fewer detections yields, if it comes first. -/
theorem yields_parkedCar (hlt : hits < hits') :
    (Sighting.ofTrack ⟨0⟩ (parkedCar n x hits)).yields
      (Sighting.ofTrack ⟨0⟩ (parkedCar m y hits')) = true := by
  have hhits : (parkedCar n x hits).hits < (parkedCar m y hits').hits := hlt
  simp [Sighting.yields, Sighting.isUnknown, Sighting.ofTrack, label_parkedCar, hhits]

end row

/-- The first car of the row goes, but only because of the second one, which goes as well. The car
that stays is too far away to be its double. -/
theorem row_not_covered :
    ¬ ∀ t ∈ row.tracks, t ∉ (row.suppress ⟨0⟩).tracks → ∃ u ∈ (row.suppress ⟨0⟩).tracks,
      Overlaps row.settings ⟨0⟩ t u ∨ Overlaps row.settings ⟨0⟩ u t := by
  have hnext : ∀ n m x h h', RosterSettings.usual.collide
      (Sighting.ofTrack ⟨0⟩ (parkedCar n x h))
      (Sighting.ofTrack ⟨0⟩ (parkedCar m (x + 3) h')) = true := by
    intro n m x h h'
    rw [collide_eq_true_iff, overlaps_parkedCar_iff, overlap_car_next]
    norm_num
  have hfirst := hnext 0 1 0 1 2
  have hsecond := hnext 1 2 3 2 3
  norm_num at hfirst hsecond
  have hleft : (row.suppress ⟨0⟩).tracks = [parkedCar 2 6 3] := by
    simp only [row, suppress, List.map_cons, List.map_nil]
    rw [RosterSettings.survivors_cons_of_yields _ hfirst (yields_parkedCar (by decide)),
      RosterSettings.survivors_cons_of_yields _ hsecond (yields_parkedCar (by decide)),
      RosterSettings.survivors_eq_self _ [_] (List.pairwise_singleton _ _)]
    rfl
  rw [hleft]
  intro h
  have hgone : parkedCar 0 0 1 ∉ [parkedCar 2 6 3] := fun hmem =>
    absurd (congrArg Track.hits (List.mem_singleton.1 hmem)) (by decide)
  obtain ⟨u, hu, hover⟩ := h (parkedCar 0 0 1) List.mem_cons_self hgone
  obtain rfl := List.mem_singleton.1 hu
  have hfar : ¬ |(0 : ℝ) - 6| ≤ 5 ∧ ¬ |(6 : ℝ) - 0| ≤ 5 := by norm_num
  rcases hover with hover | hover
  · exact hfar.1 ((overlaps_parkedCar_iff ..).1 hover).1
  · exact hfar.2 ((overlaps_parkedCar_iff ..).1 hover).1

end Roster

end TrackFusion
