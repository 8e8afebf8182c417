import TrackFusion.Proofs.Association.Table
import TrackFusion.Proofs.Association.TotalScore
import TrackFusion.Proofs.Angles
import TrackFusion.Proofs.Shares
import TrackFusion.Proofs.Geometry.Overlaps
import TrackFusion.Proofs.Roster.Coverage

/-!
# Scores are zero or between the least score and one

The gates are stated by what they exclude, so what is undefined passes all of them; but then nothing
is left of the greatest distance, and the score is zero. Any other score is a share.

* `Association.pairScore_mem`: the range of a score of doubles.
* `Association.IsScore`: when an entry of the table is not zero, and what it is then.
* `Association.scores_wellFormed`: the whole table.
* `Association.scores_negative_maxRad`: a bound on the difference of headings that is not in force,
  though it is less than half a turn.
-/

namespace TrackFusion

namespace Association

/-! ### Scores of numbers -/

section numbers

variable {α : Type} [Scalar α]

/-- Distance of a track and a detection, as a part of the greatest one. -/
def distanceShare (g : Gates α) (o : TrackedObject α) (d : Detection α) : α :=
  o.kinematics.pose.distance d.kinematics.pose / g.maxDist o.label.index d.label.index

/-- An entry of the table: it is not zero if the track has something to report, all gates are
passed and the pair is close enough, and only then. It tells how close the pair is. -/
def IsScore (close : TrackedObject α → α) (g : Gates α) (b : Batch α) (t : Track α)
    (d : Detection α) (e : α) : Prop :=
  (e ≠ 0 ↔ ∃ o, t.exportAt? b.stamp = some o ∧ Fits g o d ∧ minScore ≤ close o) ∧
    ∀ o, t.exportAt? b.stamp = some o → e ≠ 0 → e = close o

variable [OrderedScalar α] {g : Gates α} {o : TrackedObject α} {d : Detection α}

/-- **The score of a pair of which all is known.** -/
theorem pairScore_iff (hg : g.Sound) (h : Measured g o d) (hmin : (0 : α) < minScore)
    (hnum : Fits g o d → Scalar.isNaN (closeness g o d) = false) :
    (pairScore g o d ≠ 0 ↔ Fits g o d ∧ minScore ≤ closeness g o d) ∧
      (pairScore g o d ≠ 0 → pairScore g o d = closeness g o d) := by
  have hminScore := (OrderedScalar.isNaN_of_le (OrderedScalar.le_of_lt hmin)).2
  rcases pairScore_cases g o d with ⟨hpass, hscore, heq⟩ | ⟨hnot, heq⟩
  · have hfits := (passes_iff_fits hg h).1 hpass
    rw [OrderedScalar.min_eq_left hfits.near] at hscore heq
    have hle : minScore ≤ closeness g o d :=
      OrderedScalar.le_of_not_lt (hnum hfits) hminScore hscore
    have hne : pairScore g o d ≠ 0 := by
      intro hzero
      have hpos := OrderedScalar.lt_of_lt_of_le hmin hle
      rw [show closeness g o d = 0 from heq.symm.trans hzero] at hpos
      exact OrderedScalar.not_lt_of_le (OrderedScalar.le_of_lt hpos) hpos
    exact ⟨⟨fun _ => ⟨hfits, hle⟩, fun _ => hne⟩, fun _ => heq⟩
  · refine ⟨⟨fun hne => absurd heq hne, fun ⟨hfits, hle⟩ => ?_⟩, fun hne => absurd heq hne⟩
    refine absurd ⟨(passes_iff_fits hg h).2 hfits, ?_⟩ hnot
    rw [OrderedScalar.min_eq_left hfits.near]
    exact OrderedScalar.not_lt_of_le hle

theorem scores_isScore {a : Association α} (hg : a.gates.Sound) (b : Batch α)
    (tracks : List (Track α)) (i : Fin tracks.length) (j : Fin b.objects.length)
    (h : ∀ o, (tracks.get i).exportAt? b.stamp = some o →
      Measured a.gates o (b.objects.get j)) (hmin : (0 : α) < minScore)
    (hnum : ∀ o, Fits a.gates o (b.objects.get j) →
      Scalar.isNaN (closeness a.gates o (b.objects.get j)) = false) :
    IsScore (closeness a.gates · (b.objects.get j)) a.gates b (tracks.get i) (b.objects.get j)
      (a.scores b tracks i j) := by
  rw [scores_apply, IsScore]
  cases hexport : (tracks.get i).exportAt? b.stamp with
  | none => simp
  | some o =>
    have hpair := pairScore_iff hg (h o hexport) hmin (hnum o)
    simpa using hpair

end numbers

/-! ### Doubles -/

section doubles

variable {g : Gates Float} {o : TrackedObject Float} {d : Detection Float}

theorem zero_lt_minScore : (0 : Float) < minScore := by decide

/-- A share of the greatest distance that is left by a distance within it. -/
theorem closeness_le_one (hg : g.Sound)
    (hnear : o.kinematics.pose.distance d.kinematics.pose ≤
      g.maxDist o.label.index d.label.index) : closeness g o d ≤ 1 :=
  Binary64.share_le_one (Binary64.not_hypot_neg _ _) hnear (hg.maxDist_finite _ _)
    (hg.maxDist_pos _ _)

/-- **A score of doubles** is zero, or at least the least score and at most one. -/
theorem pairScore_mem (hg : g.Sound) : pairScore g o d = 0 ∨
    minScore ≤ pairScore g o d ∧ pairScore g o d ≤ 1 := by
  rcases pairScore_cases g o d with ⟨hpass, hscore, heq⟩ | ⟨-, heq⟩
  · right
    have hmax := (OrderedScalar.isNaN_of_le (OrderedScalar.le_of_lt
      (hg.maxDist_pos o.label.index d.label.index))).2
    rw [heq]
    by_cases hdist : Scalar.isNaN (o.kinematics.pose.distance d.kinematics.pose) = false
    · have hnear := OrderedScalar.le_of_not_lt hmax hdist hpass.near
      rw [OrderedScalar.min_eq_left hnear] at hscore ⊢
      have hone := closeness_le_one hg hnear
      exact ⟨OrderedScalar.le_of_not_lt (OrderedScalar.isNaN_of_le hone).1
        (OrderedScalar.isNaN_of_le (OrderedScalar.le_of_lt zero_lt_minScore)).2 hscore, hone⟩
    -- without a distance nothing is left
    · rw [Scalar.min, if_pos (Bool.eq_true_of_not_eq_false hdist)] at hscore
      exact absurd (OrderedScalar.lt_of_le_of_lt (Binary64.share_self_le (hg.maxDist_finite _ _)
        (hg.maxDist_pos _ _)) zero_lt_minScore) hscore
  · exact .inl heq

end doubles

/-! ### Tables -/

theorem sound_of_ofSettings {α : Type} [Scalar α] {s : AssociationSettings α} {a : Association α}
    (h : ofSettings s = .ok a) : a.gates.Sound := by
  rw [ofSettings] at h
  cases hg : Gates.ofSettings s with
  | error e =>
    rw [hg] at h
    cases h
  | ok g =>
    rw [hg] at h
    cases h
    exact Gates.sound_of_ofSettings hg

theorem scores_mem {a : Association Float} (hg : a.gates.Sound) (b : Batch Float)
    (tracks : List (Track Float)) (i : Fin tracks.length) (j : Fin b.objects.length) :
    a.scores b tracks i j = 0 ∨
      minScore ≤ a.scores b tracks i j ∧ a.scores b tracks i j ≤ 1 := by
  rw [scores_apply]
  cases (tracks.get i).exportAt? b.stamp with
  | none => exact .inl rfl
  | some o => exact pairScore_mem hg

section exact

variable {α : Type} [ExactScalar α]

theorem closeness_eq {g : Gates α} (hg : g.Sound) (o : TrackedObject α) (d : Detection α) :
    closeness g o d = 1 - distanceShare g o d := by
  rw [closeness, distanceShare, sub_div, div_self (hg.maxDist_pos _ _).ne']

/-- Without rounding, all that is measured are numbers. -/
theorem scores_isScore_exact {a : Association α} (hg : a.gates.Sound) (b : Batch α)
    (tracks : List (Track α)) (i : Fin tracks.length) (j : Fin b.objects.length) :
    IsScore (fun o => 1 - distanceShare a.gates o (b.objects.get j)) a.gates b (tracks.get i)
      (b.objects.get j) (a.scores b tracks i j) := by
  have hscore := scores_isScore hg b tracks i j
    (fun o _ => ⟨ExactScalar.isNaN_eq _, ExactScalar.isNaN_eq _, ExactScalar.isNaN_eq _,
      ExactScalar.isNaN_eq _⟩) minScore_pos fun o _ => ExactScalar.isNaN_eq _
  simpa only [closeness_eq hg] using hscore

end exact

/-- **Scores are well formed.** Whatever the settings are that are accepted, and whatever the
tracks and the detections, undefined and infinite numbers included: every score of doubles is a
number, and it is zero, or at least the least score and at most one. If what is measured are
numbers, it is zero unless the track has something to report, all gates are passed and the pair is
close enough, and then it is the share of the greatest distance that is left, rounded. Without
rounding, this share is exact. The gate of the heading is in force if its bound is less than half a
turn, to either side. -/
theorem scores_wellFormed :
    (∀ (s : AssociationSettings Float) (a : Association Float), ofSettings s = .ok a →
      ∀ (b : Batch Float) (tracks : List (Track Float)) (i : Fin tracks.length)
        (j : Fin b.objects.length),
        Scalar.isNaN (a.scores b tracks i j) = false ∧
        (a.scores b tracks i j = 0 ∨
          minScore ≤ a.scores b tracks i j ∧ a.scores b tracks i j ≤ 1) ∧
        ((∀ o, (tracks.get i).exportAt? b.stamp = some o →
            Measured a.gates o (b.objects.get j)) →
          IsScore (closeness a.gates · (b.objects.get j)) a.gates b (tracks.get i)
            (b.objects.get j) (a.scores b tracks i j))) ∧
    ∀ (α : Type) [ExactScalar α] (s : AssociationSettings α) (a : Association α),
      ofSettings s = .ok a →
      ∀ (b : Batch α) (tracks : List (Track α)) (i : Fin tracks.length)
        (j : Fin b.objects.length),
        IsScore (fun o => 1 - distanceShare a.gates o (b.objects.get j)) a.gates b (tracks.get i)
          (b.objects.get j) (a.scores b tracks i j) := by
  constructor
  · intro s a hs b tracks i j
    have hg := sound_of_ofSettings hs
    have hmem := scores_mem hg b tracks i j
    refine ⟨?_, hmem, fun hmeasured => ?_⟩
    · rcases hmem with hzero | ⟨hlow, -⟩
      · rw [hzero]
        decide
      · exact (OrderedScalar.isNaN_of_le hlow).2
    · exact scores_isScore hg b tracks i j hmeasured zero_lt_minScore fun o hfits =>
        (OrderedScalar.isNaN_of_le (closeness_le_one hg hfits.near)).1
  · intro α _ s a hs b tracks i j
    exact scores_isScore_exact (sound_of_ofSettings hs) b tracks i j

/-! ### Two cars in one place -/

theorem overlap_nonneg {α : Type} [ExactScalar α] (p q : Pose α) (u v : Shape α) {minUnion : α}
    (h : 0 ≤ minUnion) : 0 ≤ overlap p u q v minUnion := by
  simp only [overlap, ExactScalar.scalar_min_eq]
  split_ifs with hp hq hshared hunion
  · exact le_rfl
  · exact le_rfl
  · exact le_rfl
  · exact le_rfl
  · rw [not_lt] at hshared hunion
    exact le_min (div_nonneg (negligibleArea_pos.le.trans hshared) (h.trans hunion)) zero_le_one

/-- A car at the origin, where a track may be parked. -/
noncomputable def carSeen : Detection ℝ where
  existence := 1
  classes := [⟨.car, 1⟩]
  kinematics := .ofPose ⟨0, 0, 0, 0⟩
  shape := .box ⟨4.0, 2.0, 1.0⟩

noncomputable def carThere : Batch ℝ := ⟨⟨0⟩, "map", 0, [carSeen]⟩

/-- The score is full, if the bound on the difference of headings is none or not negative. -/
theorem IsScore.eq_one {maxRad e : ℝ} (hrad : |maxRad| < Real.pi → 0 ≤ maxRad)
    (h : IsScore (fun o => 1 - distanceShare (.uniform 2 0 100 maxRad 0) o carSeen)
      (.uniform 2 0 100 maxRad 0) carThere (Roster.parkedCar 0 0 1) carSeen e) : e = 1 := by
  obtain ⟨o, ho⟩ : ∃ o, o = (⟨IdStream.counting.nth 0, 1, [⟨.car, 1⟩],
      { Kinematics.ofPose ⟨0, 0, 0, 0⟩ with poseCov := 1, hasPoseCov := true },
      .box ⟨4, 2, 1⟩⟩ : TrackedObject ℝ) := ⟨_, rfl⟩
  have hexport : (Roster.parkedCar 0 0 1).exportAt? carThere.stamp = some o :=
    (Roster.exportAt?_parkedCar 0 0 1).trans (congrArg some ho.symm)
  have hdist : o.kinematics.pose.distance carSeen.kinematics.pose = 0 := by
    rw [ho]
    show Real.sqrt ((0 - 0) ^ 2 + (0 - 0) ^ 2) = 0
    norm_num
  have hunion : (0 : ℝ) ≤ minUnionArea := by
    rw [minUnionArea, ExactScalar.ofScientific_eq]
    norm_num
  have hfits : Fits (.uniform 2 0 100 maxRad 0) o carSeen :=
    { assignable := by simp [Gates.uniform]
      near := by simp [Gates.uniform, hdist]
      large := by norm_num [Gates.uniform, carSeen, Shape.area]
      small := by norm_num [Gates.uniform, carSeen, Shape.area]
      aligned := by
        simp only [Gates.uniform, Mat.ofFn_apply, ExactScalar.abs_eq]
        intro hbound
        have hangle : Angle.difference carSeen.kinematics.pose.yaw o.kinematics.pose.yaw false =
            (0 : ℝ) := by
          rw [ho]
          exact Angle.difference_self 0 false
        rw [hangle, abs_zero]
        exact hrad hbound
      overlapping := by
        simp only [Gates.uniform, Mat.ofFn_apply]
        exact overlap_nonneg _ _ _ _ hunion }
  have hclose : 1 - distanceShare (.uniform 2 0 100 maxRad 0) o carSeen = 1 := by
    rw [distanceShare, hdist, zero_div, sub_zero]
  have hleast : (minScore : ℝ) ≤ 1 := by
    rw [minScore, ExactScalar.ofScientific_eq]
    norm_num
  have hne : e ≠ 0 := h.1.2 ⟨o, hexport, hfits, hleast.trans_eq hclose.symm⟩
  exact (h.2 o hexport hne).trans hclose

theorem ofSettings_carThere (maxRad : ℝ) :
    ofSettings (.uniform 2 0 100 maxRad 0) = .ok ⟨.uniform 2 0 100 maxRad 0, .optimal⟩ := by
  have hgates : Gates.ofSettings (.uniform (2 : ℝ) 0 100 maxRad 0) =
      .ok (.uniform 2 0 100 maxRad 0) :=
    Gates.ofSettings_uniform rfl two_pos rfl rfl (by norm_num) le_rfl zero_le_one
  rw [ofSettings, hgates]
  rfl

/-- A track and a detection in one place. For doubles, neither has to be a number. -/
theorem scores_wellFormed_parkedCar :
    (∃ a : Association Float, ofSettings (.uniform 2.0 0.0 100.0 1.0 0.1) = .ok a ∧
      ∀ b tracks i j, Scalar.isNaN (a.scores b tracks i j) = false) ∧
    ∃ a : Association ℝ, ofSettings (.uniform 2 0 100 1 0) = .ok a ∧
      a.scores carThere [Roster.parkedCar 0 0 1] ⟨0, by decide⟩ ⟨0, by decide⟩ = 1 := by
  constructor
  · have hgates : Gates.ofSettings (.uniform (2.0 : Float) 0.0 100.0 1.0 0.1) = .ok _ :=
      Gates.ofSettings_uniform (by decide) (by decide) (by decide) (by decide) (by decide)
        (by decide) (by decide)
    have hs : ofSettings (.uniform (2.0 : Float) 0.0 100.0 1.0 0.1) =
        .ok ⟨.uniform 2.0 0.0 100.0 1.0 0.1, .optimal⟩ := by
      rw [ofSettings, hgates]
      rfl
    exact ⟨_, hs, fun b tracks i j => (scores_wellFormed.1 _ _ hs b tracks i j).1⟩
  · refine ⟨_, ofSettings_carThere 1, IsScore.eq_one (fun _ => zero_le_one) ?_⟩
    exact scores_wellFormed.2 ℝ _ _ (ofSettings_carThere 1) carThere [Roster.parkedCar 0 0 1]
      ⟨0, by decide⟩ ⟨0, by decide⟩

/-- A bound of minus four is less than half a turn, but more than one in magnitude. It is not in
force, so two cars with the same heading have a score, though no angle is within it. -/
theorem scores_negative_maxRad :
    ¬ ∀ (s : AssociationSettings ℝ) (a : Association ℝ), ofSettings s = .ok a →
      ∀ (b : Batch ℝ) (tracks : List (Track ℝ)) (i : Fin tracks.length) (j : Fin b.objects.length)
        (o : TrackedObject ℝ), (tracks.get i).exportAt? b.stamp = some o →
        a.scores b tracks i j ≠ 0 →
        a.gates.maxRad o.label.index (b.objects.get j).label.index < Scalar.pi →
        Scalar.abs (Angle.difference (b.objects.get j).kinematics.pose.yaw o.kinematics.pose.yaw
          false) ≤ a.gates.maxRad o.label.index (b.objects.get j).label.index := by
  intro h
  have hs := ofSettings_carThere (-4)
  have hnone : |(-4 : ℝ)| < Real.pi → (0 : ℝ) ≤ -4 := by
    intro hlt
    rw [abs_neg, abs_of_pos four_pos] at hlt
    exact absurd hlt Real.pi_le_four.not_gt
  have hscore := IsScore.eq_one hnone (scores_isScore_exact (sound_of_ofSettings hs) carThere
    [Roster.parkedCar 0 0 1] ⟨0, by decide⟩ ⟨0, by decide⟩)
  have hangle := h _ _ hs carThere [Roster.parkedCar 0 0 1] ⟨0, by decide⟩ ⟨0, by decide⟩ _
    (Roster.exportAt?_parkedCar 0 0 1) (by rw [hscore]; exact one_ne_zero) ?_
  · simp only [Gates.uniform, Mat.ofFn_apply, ExactScalar.abs_eq] at hangle
    exact absurd ((abs_nonneg _).trans hangle) (by norm_num)
  · simp only [Gates.uniform, Mat.ofFn_apply]
    exact (neg_lt_zero.2 four_pos).trans Real.pi_pos

end Association

end TrackFusion
