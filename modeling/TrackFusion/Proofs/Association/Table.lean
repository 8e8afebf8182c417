import Mathlib
import TrackFusion.Proofs.Ordered
import TrackFusion.Association.Basic

/-!
# The table of scores

A score has to pass the gates of its two classes. A comparison with something undefined is false, so
what is undefined passes a gate that is stated by what it excludes, as all of them are.

* `Association.scores_apply`: an entry of the table.
* `Gates.Sound`, `Gates.sound_of_ofSettings`: what is known of gates that are accepted.
* `Gates.ofSettings_uniform`: gates that are the same for all classes.
* `Association.Passes`, `Association.pairScore_cases`: a score is zero or a share of the greatest
  distance.
* `Association.Fits`, `Association.passes_iff_fits`: the gates for numbers.
-/

namespace TrackFusion

/-! ### Entries of a table -/

namespace Mat

variable {α β : Type} {m n : ℕ}

theorem mem_toList (a : Mat m n α) (i : Fin m) (j : Fin n) : a i j ∈ a.toList :=
  List.mem_flatMap.2 ⟨a.rows[i], by simp, by simp [get]⟩

/-- Rows of the same length are paired entry by entry. -/
theorem zip_flatMap : ∀ (rows : List (Vector α n)) (rows' : List (Vector β n)),
    (rows.flatMap Vector.toList).zip (rows'.flatMap Vector.toList) =
      (rows.zip rows').flatMap fun r => r.1.toList.zip r.2.toList
  | [], _ => by simp
  | _ :: _, [] => by simp
  | r :: rows, r' :: rows' => by
    simp only [List.flatMap_cons, List.zip_cons_cons]
    rw [List.zip_append (by simp), zip_flatMap rows rows']

theorem mem_zip_toList (a : Mat m n α) (b : Mat m n β) (i : Fin m) (j : Fin n) :
    (a i j, b i j) ∈ a.toList.zip b.toList := by
  rw [toList, toList, zip_flatMap]
  refine List.mem_flatMap.2 ⟨(a.rows[i], b.rows[i]), ?_, ?_⟩
  · exact List.mem_iff_getElem.2 ⟨i, by simp, by simp⟩
  · exact List.mem_iff_getElem.2 ⟨j, by simp, by simp [get]⟩

end Mat

/-! ### Gates -/

namespace Gates

variable {α : Type} [Scalar α]

/-- Sensible bounds. -/
structure Sound (g : Gates α) : Prop where
  maxDist_finite : ∀ i j, Scalar.isFinite (g.maxDist i j) = true
  maxDist_pos : ∀ i j, 0 < g.maxDist i j
  area_number : ∀ i j, Scalar.isNaN (g.minArea i j) = false ∧ Scalar.isNaN (g.maxArea i j) = false
  minOverlap_mem : ∀ i j, 0 ≤ g.minOverlap i j ∧ g.minOverlap i j ≤ 1

theorem sound_of_fault? {g : Gates α} (h : g.fault? = none) : g.Sound := by
  simp only [fault?] at h
  split at h
  · cases h
  · split at h
    · cases h
    · split at h
      · cases h
      · rename_i hdist harea hoverlap
        simp only [List.any_eq_true, not_exists, not_and, Bool.not_eq_true, Prod.forall,
          Bool.or_eq_false_iff, Bool.not_eq_false, Bool.and_eq_true, decide_eq_true_eq,
          Bool.not_eq_eq_eq_not, Bool.not_true, decide_eq_false_iff_not] at *
        exact ⟨fun i j => (hdist _ (Mat.mem_toList _ i j)).1,
          fun i j => (hdist _ (Mat.mem_toList _ i j)).2,
          fun i j => (harea _ _ (Mat.mem_zip_toList _ _ i j)).1,
          fun i j => hoverlap _ (Mat.mem_toList _ i j)⟩

/-- **Gates that are accepted are sensible.** -/
theorem sound_of_ofSettings {s : AssociationSettings α} {g : Gates α} (h : ofSettings s = .ok g) :
    g.Sound := by
  simp only [ofSettings, bind, Except.bind] at h
  -- all six tables have the right size
  iterate 6
    split at h
    · cases h
  split at h
  · cases h
  · cases h
    exact sound_of_fault? ‹_›

end Gates

/-- Settings with the same bounds for all classes. -/
def AssociationSettings.uniform {α : Type} (maxDist minArea maxArea maxRad minOverlap : α) :
    AssociationSettings α :=
  let everywhere {β : Type} (x : β) := List.replicate 8 (List.replicate 8 x)
  { canAssign := everywhere true
    maxDist := everywhere maxDist
    maxArea := everywhere maxArea
    minArea := everywhere minArea
    maxRad := everywhere maxRad
    minOverlap := everywhere minOverlap
    solver := .optimal }

namespace Gates

variable {α : Type}

/-- The same bounds for all classes. -/
def uniform (maxDist minArea maxArea maxRad minOverlap : α) : Gates α where
  canAssign := .ofFn fun _ _ => true
  maxDist := .ofFn fun _ _ => maxDist
  maxArea := .ofFn fun _ _ => maxArea
  minArea := .ofFn fun _ _ => minArea
  maxRad := .ofFn fun _ _ => maxRad
  minOverlap := .ofFn fun _ _ => minOverlap

theorem table_replicate {β : Type} (name : String) (x : β) :
    table name (List.replicate 8 (List.replicate 8 x)) = .ok (.ofFn fun _ _ => x) := rfl

theorem toList_ofFn {β : Type} (x : β) :
    (Mat.ofFn fun _ _ => x : Mat 8 8 β).toList = List.replicate 64 x := rfl

/-- Sensible bounds are accepted. -/
theorem ofSettings_uniform [Scalar α] {maxDist minArea maxArea maxRad minOverlap : α}
    (hfinite : Scalar.isFinite maxDist = true) (hpos : 0 < maxDist)
    (hmin : Scalar.isNaN minArea = false) (hmax : Scalar.isNaN maxArea = false)
    (harea : ¬ maxArea < minArea) (hzero : 0 ≤ minOverlap) (hone : minOverlap ≤ 1) :
    ofSettings (.uniform maxDist minArea maxArea maxRad minOverlap) =
      .ok (uniform maxDist minArea maxArea maxRad minOverlap) := by
  have hfault : (uniform maxDist minArea maxArea maxRad minOverlap).fault? = none := by
    simp [fault?, uniform, toList_ofFn, hfinite, hpos, hmin, hmax, harea, hzero, hone]
  simp only [uniform] at hfault ⊢
  simp only [ofSettings, AssociationSettings.uniform, table_replicate, bind, Except.bind, hfault]
  rfl

end Gates

/-! ### Scores -/

namespace Association

variable {α : Type} [Scalar α]

theorem scores_apply (a : Association α) (b : Batch α) (tracks : List (Track α))
    (i : Fin tracks.length) (j : Fin b.objects.length) :
    a.scores b tracks i j =
      match (tracks.get i).exportAt? b.stamp with
      | none => 0
      | some o => pairScore a.gates o (b.objects.get j) := by
  have hrow : a.scores b tracks i j = (scoreRow a.gates b (tracks.get i))[j] := by
    simp [scores, Mat.ofRows, Mat.get]
  rw [hrow, scoreRow]
  cases (tracks.get i).exportAt? b.stamp with
  | none => simp
  | some o => simp

/-- The gates of a track and a detection, for some way of comparing numbers. -/
structure Holds (le : α → α → Prop) (g : Gates α) (o : TrackedObject α) (d : Detection α) :
    Prop where
  assignable : g.canAssign o.label.index d.label.index = true
  near : le (o.kinematics.pose.distance d.kinematics.pose)
    (g.maxDist o.label.index d.label.index)
  large : le (g.minArea o.label.index d.label.index) d.shape.area
  small : le d.shape.area (g.maxArea o.label.index d.label.index)
  /-- Half a turn and more, to either side, is no bound. -/
  aligned : Scalar.abs (g.maxRad o.label.index d.label.index) < Scalar.pi →
    le (Scalar.abs (Angle.difference d.kinematics.pose.yaw o.kinematics.pose.yaw false))
      (g.maxRad o.label.index d.label.index)
  overlapping : le (g.minOverlap o.label.index d.label.index)
    (overlap o.kinematics.pose o.shape d.kinematics.pose d.shape minUnionArea)

/-- No gate excludes the pair. What is undefined excludes nothing. -/
abbrev Passes : Gates α → TrackedObject α → Detection α → Prop := Holds fun x y => ¬ y < x

/-- All numbers are within their bounds. -/
abbrev Fits : Gates α → TrackedObject α → Detection α → Prop := Holds (· ≤ ·)

/-- What is left of the greatest distance, as a share of it. -/
def closeness (g : Gates α) (o : TrackedObject α) (d : Detection α) : α :=
  let maxDist := g.maxDist o.label.index d.label.index
  (maxDist - o.kinematics.pose.distance d.kinematics.pose) / maxDist

variable {g : Gates α} {o : TrackedObject α} {d : Detection α}

theorem headingFits_iff (maxRad : α) (track detection : Pose α) :
    headingFits maxRad track detection = true ↔ (Scalar.abs maxRad < Scalar.pi →
      ¬ maxRad < Scalar.abs (Angle.difference detection.yaw track.yaw false)) := by
  rw [headingFits]
  split
  · rename_i h
    simp [h]
  · rename_i h
    simp [h]

/-- **A score** is zero, unless the pair passes all gates and is close enough. -/
theorem pairScore_cases (g : Gates α) (o : TrackedObject α) (d : Detection α) :
    let maxDist := g.maxDist o.label.index d.label.index
    let dist := o.kinematics.pose.distance d.kinematics.pose
    let score := (maxDist - Scalar.min dist maxDist) / maxDist
    Passes g o d ∧ ¬ score < minScore ∧ pairScore g o d = score ∨
      ¬ (Passes g o d ∧ ¬ score < minScore) ∧ pairScore g o d = 0 := by
  intro maxDist dist score
  simp only [pairScore]
  -- one gate after the other
  split
  · rename_i hassign
    exact .inr ⟨fun h => by simp [h.1.assignable] at hassign, rfl⟩
  rename_i hassign
  split
  · rename_i hfar
    exact .inr ⟨fun h => h.1.near hfar, rfl⟩
  rename_i hnear
  split
  · rename_i harea
    exact .inr ⟨fun h => harea.elim h.1.large h.1.small, rfl⟩
  rename_i harea
  split
  · rename_i hheading
    rw [Bool.not_eq_true', ← Bool.not_eq_true, headingFits_iff] at hheading
    exact .inr ⟨fun h => hheading h.1.aligned, rfl⟩
  rename_i hheading
  rw [Bool.not_eq_true', Bool.not_eq_false, headingFits_iff] at hheading
  split
  · rename_i hoverlap
    exact .inr ⟨fun h => h.1.overlapping hoverlap, rfl⟩
  rename_i hoverlap
  split
  · rename_i hlow
    exact .inr ⟨fun h => h.2 hlow, rfl⟩
  rename_i hlow
  have hpass : Passes g o d :=
    { assignable := by simpa using hassign
      near := hnear
      large := fun h => harea (.inl h)
      small := fun h => harea (.inr h)
      aligned := hheading
      overlapping := hoverlap }
  exact .inl ⟨hpass, hlow, rfl⟩

/-! ### Numbers -/

/-- What is measured of a pair is a number. -/
structure Measured (g : Gates α) (o : TrackedObject α) (d : Detection α) : Prop where
  distance : Scalar.isNaN (o.kinematics.pose.distance d.kinematics.pose) = false
  area : Scalar.isNaN d.shape.area = false
  angle : Scalar.isNaN
    (Scalar.abs (Angle.difference d.kinematics.pose.yaw o.kinematics.pose.yaw false)) = false
  maxRad : Scalar.isNaN (g.maxRad o.label.index d.label.index) = false

/-- Overlaps are numbers, whatever is divided. -/
theorem isNaN_overlap (hzero : Scalar.isNaN (0 : α) = false) (hone : Scalar.isNaN (1 : α) = false)
    (p q : Pose α) (s t : Shape α) (minUnion : α) :
    Scalar.isNaN (overlap p s q t minUnion) = false := by
  have hmin : ∀ x : α, Scalar.isNaN (Scalar.min x 1) = false := by
    intro x
    rw [Scalar.min]
    split_ifs with hx h1 hlt
    · exact hone
    · exact absurd h1 (by simp [hone])
    · exact hone
    · simpa using hx
  simp only [overlap]
  split_ifs
  · exact hzero
  · exact hzero
  · exact hzero
  · exact hzero
  · exact hmin _

/-- **Of numbers, those that are not excluded are within their bounds.** -/
theorem passes_iff_fits [OrderedScalar α] (hg : g.Sound) (h : Measured g o d) :
    Passes g o d ↔ Fits g o d := by
  have hle : ∀ {x y : α}, Scalar.isNaN x = false → Scalar.isNaN y = false →
      (¬ y < x ↔ x ≤ y) := fun hx hy =>
    ⟨OrderedScalar.le_of_not_lt hy hx, OrderedScalar.not_lt_of_le⟩
  obtain ⟨hmin, hmax⟩ := hg.area_number o.label.index d.label.index
  obtain ⟨hzero, hone⟩ := hg.minOverlap_mem o.label.index d.label.index
  have hoverlap := isNaN_overlap (OrderedScalar.isNaN_of_le hzero).1
    (OrderedScalar.isNaN_of_le hone).2 o.kinematics.pose d.kinematics.pose o.shape d.shape
    minUnionArea
  have hdist := (OrderedScalar.isNaN_of_le (OrderedScalar.le_of_lt
    (hg.maxDist_pos o.label.index d.label.index))).2
  have hratio := (OrderedScalar.isNaN_of_le hone).1
  constructor
  · intro hp
    exact ⟨hp.assignable, (hle h.distance hdist).1 hp.near, (hle hmin h.area).1 hp.large,
      (hle h.area hmax).1 hp.small, fun hturn => (hle h.angle h.maxRad).1 (hp.aligned hturn),
      (hle hratio hoverlap).1 hp.overlapping⟩
  · intro hf
    exact ⟨hf.assignable, (hle h.distance hdist).2 hf.near, (hle hmin h.area).2 hf.large,
      (hle h.area hmax).2 hf.small, fun hturn => (hle h.angle h.maxRad).2 (hf.aligned hturn),
      (hle hratio hoverlap).2 hf.overlapping⟩

end Association

end TrackFusion
