import TrackFusion.Proofs.Displacement.Geometry
import TrackFusion.Proofs.Track.Events

/-!
# Smoothed classes

The class probabilities of a track are those of its first detection until a detection says something
about the class. From then on they are a distribution, whatever the detections are.

* `weightOf`, `blendedWeight`: what a list says about a class, and what two lists say together.
* `Tells`: a list says something about the class.
* `blendClasses_eq`: the classes after such a list are the shares in what is likely enough.
* `IsDistribution`: classes in their order with probabilities that add up to one.
* `Track.classes_ok`: each detection, and all that happens to a track.
-/

namespace TrackFusion

variable {α : Type} [ExactScalar α]

/-! ### Weights -/

/-- The probabilities that a list gives to a class, added up. -/
def weightOf (cs : List (Classification α)) (l : Label) : α :=
  ((cs.filter fun c => c.label = l).map Classification.probability).sum

theorem weightOf_append (cs ds : List (Classification α)) (l : Label) :
    weightOf (cs ++ ds) l = weightOf cs l + weightOf ds l := by
  simp [weightOf]

theorem weightOf_scaleClasses (weight : α) (cs : List (Classification α)) (l : Label) :
    weightOf (scaleClasses weight cs) l = weight * weightOf cs l := by
  unfold weightOf scaleClasses
  rw [List.filter_map, List.map_map, ← List.sum_map_mul_left]
  rfl

theorem weightOf_perm {cs ds : List (Classification α)} (h : cs.Perm ds) (l : Label) :
    weightOf cs l = weightOf ds l :=
  ((h.filter _).map _).sum_eq

/-- What a list does not mention has no weight in it. -/
theorem weightOf_eq_zero {cs : List (Classification α)} {l : Label}
    (h : ∀ c ∈ cs, c.label ≠ l) : weightOf cs l = 0 := by
  have hnone : (cs.filter fun c => c.label = l) = [] := by simpa using h
  rw [weightOf, hnone, List.map_nil, List.sum_nil]

/-- What the classes of a track and of a detection say about a class together. -/
def blendedWeight (old measured : List (Classification α)) (l : Label) : α :=
  (1.0 - classGain) * weightOf old l + classGain * weightOf measured l

theorem minClassProbability_pos : (0 : α) < minClassProbability := by
  rw [minClassProbability, ExactScalar.ofScientific_eq]
  norm_num

/-- A class that is likely enough has been mentioned. -/
theorem exists_of_likely {old measured : List (Classification α)} {l : Label}
    (h : minClassProbability ≤ blendedWeight old measured l) :
    ∃ c ∈ old ++ measured, c.label = l := by
  by_contra! hnone
  have hold : weightOf old l = 0 := weightOf_eq_zero fun c hc => hnone c (by simp [hc])
  have hmeasured : weightOf measured l = 0 := weightOf_eq_zero fun c hc => hnone c (by simp [hc])
  rw [blendedWeight, hold, hmeasured, mul_zero, mul_zero, add_zero] at h
  exact h.not_gt minClassProbability_pos

/-! ### What is likely enough -/

/-- The classes that are likely enough by some weights, in their order. -/
def likely (w : Label → α) : List Label :=
  Label.all.filter fun l => decide (minClassProbability ≤ w l)

theorem mem_likely {w : Label → α} {l : Label} : l ∈ likely w ↔ minClassProbability ≤ w l := by
  simp [likely, Label.mem_all]

/-- The classes that are likely enough, each with its share in them. -/
def shares (w : Label → α) : List (Classification α) :=
  (likely w).map fun l => ⟨l, w l / ((likely w).map w).sum⟩

/-- A probability for each class of a list: the classes in their order, each with a positive
probability, and all of them together with one. -/
structure IsDistribution (cs : List (Classification α)) : Prop where
  sorted : cs.Pairwise fun c d => c.label.index < d.label.index
  pos : ∀ c ∈ cs, 0 < c.probability
  total : (cs.map Classification.probability).sum = 1

theorem likely_pos {w : Label → α} {l : Label} (hl : l ∈ likely w) : 0 < w l :=
  minClassProbability_pos.trans_le (mem_likely.1 hl)

theorem total_pos {w : Label → α} (h : likely w ≠ []) : 0 < ((likely w).map w).sum := by
  refine List.sum_pos _ (fun x hx => ?_) (by simpa using h)
  obtain ⟨l, hl, rfl⟩ := List.mem_map.1 hx
  exact likely_pos hl

theorem isDistribution_shares {w : Label → α} (h : likely w ≠ []) : IsDistribution (shares w) where
  sorted := by
    have hall : Label.all.Pairwise fun l l' => l.index < l'.index := by decide
    exact List.pairwise_map.2 (hall.filter _)
  pos := by
    intro c hc
    obtain ⟨l, hl, rfl⟩ := List.mem_map.1 hc
    exact div_pos (likely_pos hl) (total_pos h)
  total := by
    have hsum : ((shares w).map Classification.probability).sum =
        ((likely w).map w).sum / ((likely w).map w).sum := by
      rw [shares, List.map_map, div_eq_mul_inv, ← List.sum_map_mul_right]
      simp only [← div_eq_mul_inv]
      rfl
    rw [hsum, div_self (total_pos h).ne']

/-! ### Blending -/

/-- What is measured says something about the class: some class, other than the unknown one, and
with what is known already there is one that is likely enough. -/
structure Tells (old measured : List (Classification α)) : Prop where
  some_class : measured ≠ []
  known : mostLikely measured ≠ .unknown
  likely : ∃ l, minClassProbability ≤ blendedWeight old measured l

/-- The sums over the classes that are likely enough. -/
theorem filter_sumByClass (cs : List (Classification α)) :
    (sumByClass cs).filter (fun c => decide (minClassProbability ≤ c.probability)) =
      (likely (weightOf cs)).map fun l => ⟨l, weightOf cs l⟩ := by
  have hsum : ∀ same : List (Classification α),
      same.foldl (fun acc c => acc + c.probability) 0 = (same.map Classification.probability).sum :=
    Polygon.foldl_add_eq_sum Classification.probability
  rw [sumByClass, List.filter_filterMap, likely, ← List.filterMap_eq_map, List.filterMap_filter]
  refine List.filterMap_congr fun l _ => ?_
  simp only [hsum]
  cases hsame : cs.filter fun c => c.label = l with
  | nil =>
    -- a class that is not mentioned has no weight, so that it would not be left either
    have hzero : weightOf cs l = 0 := by rw [weightOf, hsame, List.map_nil, List.sum_nil]
    rw [hzero, decide_eq_false minClassProbability_pos.not_ge]
    rfl
  | cons c same =>
    have hweight : weightOf cs l = ((c :: same).map Classification.probability).sum := by
      rw [weightOf, hsame]
    rw [Function.comp_apply, hweight]
    exact Option.filter_some ..

/-- **The classes after a detection.** If it says something they are the shares in what is likely
enough, and if not they stay as they were. -/
theorem blendClasses_eq (old measured : List (Classification α)) :
    (Tells old measured → blendClasses old measured = shares (blendedWeight old measured)) ∧
      (¬ Tells old measured → blendClasses old measured = old) := by
  let both := scaleClasses (1.0 - classGain) old ++ scaleClasses classGain measured
  have hboth : weightOf both = blendedWeight old measured := by
    ext l
    rw [weightOf_append, weightOf_scaleClasses, weightOf_scaleClasses, blendedWeight]
  have hkept : (sumByClass both).filter (fun c => decide (minClassProbability ≤ c.probability)) =
      (likely (blendedWeight old measured)).map fun l => ⟨l, blendedWeight old measured l⟩ := by
    rw [filter_sumByClass, hboth]
  have htotal : ((likely (blendedWeight old measured)).map fun l =>
      (⟨l, blendedWeight old measured l⟩ : Classification α)).foldl
        (fun acc c => acc + c.probability) 0 =
      ((likely (blendedWeight old measured)).map (blendedWeight old measured)).sum := by
    rw [Polygon.foldl_add_eq_sum Classification.probability, List.map_map]
    rfl
  have hblend : blendClasses old measured =
      if measured.isEmpty || mostLikely measured = .unknown then old
      else if ((likely (blendedWeight old measured)).map (blendedWeight old measured)).sum ≤ 0 then
        old
      else shares (blendedWeight old measured) := by
    unfold blendClasses
    dsimp only
    rw [hkept, htotal, List.map_map]
    rfl
  rw [hblend]
  constructor
  · intro h
    obtain ⟨l, hl⟩ := h.likely
    have hne : likely (blendedWeight old measured) ≠ [] := List.ne_nil_of_mem (mem_likely.2 hl)
    have hclass : ¬ (measured.isEmpty || mostLikely measured = .unknown) = true := by
      simp [h.some_class, h.known]
    rw [if_neg hclass, if_neg (total_pos hne).not_ge]
  · intro h
    split
    · rfl
    · next hclass =>
      rw [Bool.or_eq_true, not_or, List.isEmpty_iff, decide_eq_true_iff] at hclass
      -- the list names a class, so that only its weight can be too small
      have hnil : likely (blendedWeight old measured) = [] := by
        by_contra hne
        obtain ⟨l, hl⟩ := List.exists_mem_of_ne_nil _ hne
        exact h ⟨hclass.1, hclass.2, l, mem_likely.1 hl⟩
      rw [hnil, if_pos (by simp)]

/-! ### Tracks -/

namespace Track

/-- A detection that says something about the class of the track. -/
def Informs (t : Track α) : Event α → Prop
  | .measure d _ _ => Tells t.classes d.classes
  | _ => False

theorem step_classes_of_informs {t : Track α} {e : Event α} (h : t.Informs e) :
    IsDistribution (t.step e).classes := by
  cases e with
  | measure d now ego =>
    obtain ⟨l, hl⟩ := Tells.likely h
    have hne : likely (blendedWeight t.classes d.classes) ≠ [] :=
      List.ne_nil_of_mem (mem_likely.2 hl)
    show IsDistribution (blendClasses t.classes d.classes)
    rw [(blendClasses_eq ..).1 h]
    exact isDistribution_shares hne
  | predict | limit | miss => cases h

theorem step_classes_of_not_informs {t : Track α} {e : Event α} (h : ¬ t.Informs e) :
    (t.step e).classes = t.classes := by
  cases e with
  | measure d now ego => exact (blendClasses_eq ..).2 h
  | predict now =>
    show (t.carried now).classes = t.classes
    rw [carried_eq]
  | limit | miss => rfl

/-- **Classes are a distribution from the first detection on that says something about them**, and
stay as they were until then. So it is for each detection: one that says nothing leaves them as they
are, and one that says something leaves a distribution over classes that have been mentioned, in
which only the sums over each class count. -/
theorem classes_ok :
    (∀ (t : Track α) (d : Detection α) (now : Time α) (ego : Isometry α),
      (¬ Tells t.classes d.classes → (t.measure d now ego).1.classes = t.classes) ∧
      (Tells t.classes d.classes → IsDistribution (t.measure d now ego).1.classes ∧
        ∀ c ∈ (t.measure d now ego).1.classes, ∃ c' ∈ t.classes ++ d.classes, c'.label = c.label)) ∧
    (∀ (t : Track α) (d d' : Detection α) (now now' : Time α) (ego ego' : Isometry α),
      Tells t.classes d.classes → Tells t.classes d'.classes →
      (d.classes.Perm d'.classes ∨ ∀ l, weightOf d.classes l = weightOf d'.classes l) →
      (t.measure d now ego).1.classes = (t.measure d' now' ego').1.classes) ∧
    ∀ (t : Track α) (events : List (Event α)),
      (t.Meets Informs events → IsDistribution (t.after events).classes) ∧
      (¬ t.Meets Informs events → (t.after events).classes = t.classes) := by
  refine ⟨?_, ?_, ?_⟩
  · intro t d now ego
    refine ⟨fun h => step_classes_of_not_informs (e := .measure d now ego) h, fun h => ?_⟩
    refine ⟨step_classes_of_informs (e := .measure d now ego) h, fun c hc => ?_⟩
    have hshares : (t.measure d now ego).1.classes = shares (blendedWeight t.classes d.classes) :=
      (blendClasses_eq ..).1 h
    rw [hshares] at hc
    obtain ⟨l, hl, rfl⟩ := List.mem_map.1 hc
    exact exists_of_likely (mem_likely.1 hl)
  · intro t d d' now now' ego ego' h h' hsame
    have hweight : weightOf d.classes = weightOf d'.classes := by
      ext l
      rcases hsame with hperm | hsums
      · exact weightOf_perm hperm l
      · exact hsums l
    have hblended : blendedWeight t.classes d.classes = blendedWeight t.classes d'.classes := by
      ext l
      rw [blendedWeight, hweight, blendedWeight]
    show blendClasses t.classes d.classes = blendClasses t.classes d'.classes
    rw [(blendClasses_eq ..).1 h, (blendClasses_eq ..).1 h', hblended]
  · intro t events
    constructor
    · refine after_of_meets (I := fun _ => True) (P := fun t => IsDistribution t.classes) trivial
        (fun _ _ _ => trivial) (fun t e _ h => step_classes_of_informs h) fun t e _ hP => ?_
      by_cases h : t.Informs e
      · exact step_classes_of_informs h
      · rwa [step_classes_of_not_informs h]
    · exact after_of_not_meets (P := fun u => u.classes = t.classes) rfl fun u e h hu =>
        (step_classes_of_not_informs h).trans hu

/-- A detection of something at rest. -/
def seenAs (classes : List (Classification ℚ)) : Detection ℚ where
  existence := 1
  classes := classes
  kinematics :=
    { pose := ⟨0, 0, 0, 0⟩
      poseCov := 0
      hasPoseCov := false
      heading := .unavailable
      twist := ⟨0, 0, 0⟩
      hasTwist := false
      twistCov := 0
      hasTwistCov := false }
  shape := .cylinder 1 1

/-- What starts as a car with too much certainty is seen as one and as a truck, and less than not as
a bus. -/
theorem classes_ok_carOrTruck :
    let measured : List (Classification ℚ) :=
      [⟨.truck, 3 / 10⟩, ⟨.car, 1 / 5⟩, ⟨.truck, 2 / 5⟩, ⟨.bus, -1⟩]
    let t : Track ℚ := .spawn ⟨0⟩ ⟨0⟩ (seenAs [⟨.car, 2⟩]) .passThrough
    (t.measure (seenAs measured) ⟨1⟩ .identity).1.classes =
        (t.measure (seenAs measured.reverse) ⟨1⟩ .identity).1.classes ∧
      IsDistribution
        (t.after [.miss, .measure (seenAs measured) ⟨1⟩ .identity, .limit]).classes := by
  intro measured t
  have htells : Tells t.classes measured := ⟨by decide, by decide +kernel, .car, by decide +kernel⟩
  have htells' : Tells t.classes measured.reverse :=
    ⟨by decide, by decide +kernel, .car, by decide +kernel⟩
  obtain ⟨-, horder, hrun⟩ := classes_ok (α := ℚ)
  exact ⟨horder t (seenAs measured) (seenAs measured.reverse) ⟨1⟩ ⟨1⟩ .identity .identity htells
    htells' (.inl measured.reverse_perm.symm), (hrun t _).1 (.inr (.inl htells))⟩

end Track

end TrackFusion
