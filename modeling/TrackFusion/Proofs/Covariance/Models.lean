import TrackFusion.Proofs.Covariance.Tracks
import TrackFusion.Track.Kind

/-!
# Covariances in every state

* `TrackModel.Spawned`: new models.
* `TrackModel.Sound`: the invariant, for all kinds of models.
* `TrackModel.Restless`: the noise of the motion leaves a doubt about the position.
* `TrackModel.covariances_ok`: covariances stay covariances, and after some time no position is
  certain.
-/

namespace TrackFusion

/-! ### Profiles -/

namespace TrackKind

theorem boxProfile?_cases {k : TrackKind} {l : Label} {p : BoxProfile ℝ}
    (h : k.boxProfile? l = some p) :
    p = .normalVehicle ∨ p = .bigVehicle ∨ p = .bicycle ∨ p = .pedestrian := by
  unfold boxProfile? at h
  split at h
  -- two kinds depend on the class
  case h_3 | h_6 => split at h <;> cases h <;> simp
  all_goals cases h <;> simp

end TrackKind

namespace BoxProfile

variable {p : BoxProfile ℝ}

/-- All variances of a profile are squares. -/
theorem proper_of_boxProfile? {k : TrackKind} {l : Label} (h : k.boxProfile? l = some p) :
    p.Proper := by
  have hsquare : ∀ x : ℝ, 0 ≤ x * x := mul_self_nonneg
  rcases TrackKind.boxProfile?_cases h with rfl | rfl | rfl | rfl
  all_goals
    exact ⟨hsquare _, hsquare _, hsquare _, hsquare _, hsquare _, hsquare _, hsquare _, hsquare _,
      hsquare _, ⟨hsquare _, hsquare _, hsquare _, hsquare _, hsquare _⟩⟩

theorem restless_of_boxProfile? {k : TrackKind} {l : Label} (h : k.boxProfile? l = some p) :
    0 < p.motion.varX ∧ 0 < p.motion.varY := by
  have hdeviation : (0 : ℝ) < 0.5 * 0.5 := by norm_num
  rcases TrackKind.boxProfile?_cases h with rfl | rfl | rfl | rfl
  all_goals exact ⟨hdeviation, hdeviation⟩

end BoxProfile

theorem PointProfile.proper_of_eq {p : PointProfile ℝ} (h : p = .generic ∨ p = .unclassified) :
    p.Proper := by
  have hsquare : ∀ x : ℝ, 0 ≤ x * x := mul_self_nonneg
  rcases h with rfl | rfl
  all_goals
    exact ⟨hsquare _, hsquare _, hsquare _, hsquare _, hsquare _, hsquare _, hsquare _, hsquare _,
      ⟨hsquare _, hsquare _, hsquare _, hsquare _⟩⟩

namespace TrackModel

/-! ### States -/

/-- A model is new, with some profile and from some detection. -/
inductive Spawned : TrackModel ℝ → Prop
  | box {p : BoxProfile ℝ} {d : Detection ℝ} (hp : p.Proper) (hd : d.Proper) (t : Time ℝ) :
      Spawned (.box (.spawn t d p))
  | point {p : PointProfile ℝ} {d : Detection ℝ} (hp : p.Proper) (hd : d.Proper) (t : Time ℝ) :
      Spawned (.point (.spawn t d p))
  | unclassified {p : PointProfile ℝ} {d : Detection ℝ} (hp : p.Proper) (hd : d.Proper)
      (t : Time ℝ) : Spawned (.unclassified (.spawn t d p))
  | passThrough {d : Detection ℝ} (t : Time ℝ) : Spawned (.passThrough ⟨d, t⟩)

/-- The covariance of the estimate is one, if there is an estimate. -/
def HasCovariance : TrackModel ℝ → Prop :=
  All (fun b => b.estimate.filter.cov.IsCovariance) fun p => p.estimate.filter.cov.IsCovariance

/-- There is a doubt about the position along both axes, if there is an estimate. -/
def IsUncertain : TrackModel ℝ → Prop := All BoxTrack.IsUncertain PointTrack.IsUncertain

/-! ### The invariant -/

def Sound : TrackModel ℝ → Prop := All BoxTrack.Sound PointTrack.Sound

/-- The noise leaves a doubt about the position, if there is an estimate. -/
def Restless : TrackModel ℝ → Prop := All BoxTrack.Restless PointTrack.Restless

variable {m m₀ : TrackModel ℝ}

theorem Sound.hasCovariance (h : m.Sound) : m.HasCovariance :=
  All.imp h (fun _ hb => hb.cov) fun _ hp => hp.cov

theorem Spawned.sound (h : m.Spawned) : m.Sound := by
  cases h with
  | box hp hd t => exact BoxTrack.sound_spawn hp t hd
  | point hp hd t => exact PointTrack.sound_spawn hp t hd
  | unclassified hp hd t => exact PointTrack.sound_spawn hp t hd
  | passThrough t => trivial

theorem Reaches.sound (h : m₀.Reaches Detection.Proper m) (h₀ : m₀.Sound) : m.Sound :=
  h.all BoxTrack.keeps_sound PointTrack.keeps_sound h₀

theorem Reaches.restless {D : Detection ℝ → Prop} (h : m₀.Reaches D m) (h₀ : m₀.Restless) :
    m.Restless := by
  have hbox : BoxTrack.Keeps D BoxTrack.Restless :=
    BoxTrack.keeps_profile fun q => 0 < q.motion.varX ∧ 0 < q.motion.varY
  have hpoint : PointTrack.Keeps D PointTrack.Restless :=
    PointTrack.keeps_profile fun q => 0 < q.motion.varX ∧ 0 < q.motion.varY
  exact h.all hbox hpoint h₀

/-- **After some time no position is certain**, and a model can be carried on to any later time. -/
theorem Sound.predict?_uncertain (h : m.Sound) (hr : m.Restless) {t : Time ℝ}
    (ht : ∀ u, m.time? = some u → u < t) : ∃ m', m.predict? t = some m' ∧ m'.IsUncertain := by
  cases m with
  | box b =>
    obtain ⟨b', hb', huncertain⟩ := BoxTrack.Sound.predict?_uncertain h hr (ht _ rfl)
    exact ⟨.box b', by rw [TrackModel.predict?, hb']; rfl, huncertain⟩
  | point p =>
    obtain ⟨p', hp', huncertain⟩ := PointTrack.Sound.predict?_uncertain h hr (ht _ rfl)
    exact ⟨.point p', by rw [TrackModel.predict?, hp']; rfl, huncertain⟩
  | unclassified p =>
    obtain ⟨p', hp', huncertain⟩ := PointTrack.Sound.predict?_uncertain h hr (ht _ rfl)
    exact ⟨.unclassified p', by rw [TrackModel.predict?, hp']; rfl, huncertain⟩
  | passThrough p => exact ⟨_, rfl, trivial⟩

/-! ### New models -/

theorem spawned_spawn (k : TrackKind) (l : Label) (t : Time ℝ) {d : Detection ℝ}
    (hd : d.Proper) : (k.spawn t d l).Spawned := by
  unfold TrackKind.spawn
  split
  · rename_i p hp
    exact .box (BoxProfile.proper_of_boxProfile? hp) hd t
  · split
    · exact .point (PointProfile.proper_of_eq (.inl rfl)) hd t
    · exact .passThrough t
    · exact .unclassified (PointProfile.proper_of_eq (.inr rfl)) hd t

theorem restless_spawn (k : TrackKind) (l : Label) (t : Time ℝ) (d : Detection ℝ) :
    (k.spawn t d l).Restless := by
  have hdeviation : (0 : ℝ) < 0.5 * 0.5 := by norm_num
  unfold TrackKind.spawn
  split
  · rename_i p hp
    exact BoxProfile.restless_of_boxProfile? hp
  · split
    · exact ⟨hdeviation, hdeviation⟩
    · trivial
    · exact ⟨hdeviation, hdeviation⟩

/-! ### All states -/

/-- **Covariances stay covariances**, in every state that a model can get into. So is the noise of
the motion one at every heading, and after some time it leaves a doubt about the position of every
model of the kinds there are. -/
theorem covariances_ok :
    (∀ m₀ m : TrackModel ℝ, m₀.Spawned → m₀.Reaches Detection.Proper m → m.HasCovariance) ∧
    (∀ along across yaw : ℝ, 0 ≤ along → 0 ≤ across →
      (turnedVariance along across yaw).IsCovariance) ∧
    (∀ (p : TurnRate.Params ℝ) (yaw dt : ℝ), p.Proper → (p.noise yaw dt).IsCovariance) ∧
    ∀ (k : TrackKind) (l : Label) (t : Time ℝ) (d : Detection ℝ) (m : TrackModel ℝ) (now : Time ℝ),
      d.Proper → (k.spawn t d l).Reaches Detection.Proper m → (∀ u, m.time? = some u → u < now) →
        ∃ m', m.predict? now = some m' ∧ m'.IsUncertain := by
  refine ⟨?_, ?_, ?_, ?_⟩
  · intro m₀ m h₀ h
    exact (h.sound h₀.sound).hasCovariance
  · intro along across yaw ha hc
    exact isCovariance_turnedVariance ha hc yaw
  · intro p yaw dt hp
    exact p.noise_isCovariance hp yaw dt
  · intro k l t d m now hd h hnow
    have hsound : m.Sound := h.sound (spawned_spawn k l t hd).sound
    have hrestless : m.Restless := h.restless (restless_spawn k l t d)
    exact hsound.predict?_uncertain hrestless hnow

/-- A pedestrian whose place is known equally well along all axes. -/
noncomputable def onePedestrian : Detection ℝ where
  existence := 1
  classes := [⟨.pedestrian, 1⟩]
  kinematics :=
    { Kinematics.ofPose .origin with poseCov := .diagonal (.ofFn fun _ => 1), hasPoseCov := true }
  shape := .cylinder 1 1

theorem covariances_ok_onePedestrian :
    onePedestrian.Proper ∧
      ∃ m m' : TrackModel ℝ,
        (TrackKind.pedestrian.spawn ⟨0⟩ onePedestrian .pedestrian).Reaches Detection.Proper m ∧
        m.HasCovariance ∧ m.predict? ⟨1⟩ = some m' ∧ m'.HasCovariance ∧ m'.IsUncertain := by
  have hproper : onePedestrian.Proper := by
    refine ⟨fun _ => Mat.isCovariance_diagonal fun i => ?_, fun h => ?_⟩
    · rw [Vec.ofFn_apply]
      exact zero_le_one
    · cases h
  obtain ⟨hcov, -, -, hahead⟩ := covariances_ok
  have hspawned := spawned_spawn .pedestrian .pedestrian ⟨0⟩ hproper
  have hstart : (TrackKind.pedestrian.spawn ⟨0⟩ onePedestrian .pedestrian).Reaches Detection.Proper
      (TrackKind.pedestrian.spawn ⟨0⟩ onePedestrian .pedestrian) := .start
  have hm := hstart.measure hproper ⟨0⟩ .identity
  obtain ⟨m', hm', huncertain⟩ := hahead .pedestrian .pedestrian ⟨0⟩ onePedestrian _ ⟨1⟩ hproper hm
    fun u hu => by
      rw [measure_time?] at hu
      rw [spawn_time? _ _ _ _ u hu]
      exact zero_lt_one (α := ℝ)
  exact ⟨hproper, _, m', hm, hcov _ _ hspawned hm, hm', hcov _ _ hspawned (hm.predict hm'),
    huncertain⟩

end TrackModel

end TrackFusion
