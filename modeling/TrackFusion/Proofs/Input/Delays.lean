import TrackFusion.Proofs.Input.Calls
import TrackFusion.Proofs.Nearest

/-!
# Delays and recoveries

A channel that has fallen silent is reported once, and once more when it is back on time. Only a new
batch can bring it back: without one, its age grows and what counts as a delay stays the same.

* `Stream.reportDelay_of_some`, `reportDelay_of_none`: a report flips what the stream remembers.
* `Intake.reported`: the reports about one channel in a run.
* `Intake.Following.call`: what is remembered after some reports.
* `Intake.delays_ok`: delays and recoveries in turn.
-/

namespace TrackFusion

/-! ### Reports -/

namespace DelayReport

variable {α : Type}

/-- Whether a report is about a delay. All others are about a recovery. -/
def IsDelay : DelayReport α → Prop
  | delayed _ _ => True
  | recovered _ => False

/-- The channel that a report names. -/
def name : DelayReport α → String
  | delayed name _ => name
  | recovered name => name

/-- Delays and recoveries in turn, a delay first. -/
def Alternates (rs : List (DelayReport α)) : Prop :=
  ∀ (i : ℕ) (r : DelayReport α), rs[i]? = some r → (r.IsDelay ↔ Even i)

theorem Alternates.nil : Alternates ([] : List (DelayReport α)) := nofun

theorem Alternates.concat {rs : List (DelayReport α)} (h : Alternates rs) {r : DelayReport α}
    (hr : r.IsDelay ↔ Even rs.length) : Alternates (rs ++ [r]) := by
  intro i r' hi
  rcases lt_trichotomy i rs.length with hlt | rfl | hgt
  · rw [List.getElem?_append_left hlt] at hi
    exact h i r' hi
  · rw [List.getElem?_concat_length, Option.some_inj] at hi
    rwa [← hi]
  · rw [List.getElem?_eq_none (by simpa using hgt)] at hi
    cases hi

end DelayReport

variable {α : Type} [Scalar α]

namespace Stream

/-- A batch has arrived, but not for longer than usual. -/
def IsLate (s : Stream α) (now : Time α) : Prop :=
  ∃ last, s.latest? = some last ∧ s.timing.patience < now - last.received

theorem reportDelay_of_latest_none {s : Stream α} (h : s.latest? = none) (now : Time α) :
    s.reportDelay now = (none, s) := by
  simp [reportDelay, health, h]

/-- After the first arrival, each look at the clock tells whether the stream is late. -/
theorem reportDelay_of_latest_some {s : Stream α} {last : Arrival α} (h : s.latest? = some last)
    (now : Time α) :
    ((s.reportDelay now).2.reportedDelay = true ↔ s.IsLate now) ∧
      (s.reportDelay now).1 =
        if s.reportedDelay = (s.reportDelay now).2.reportedDelay then none
        else if (s.reportDelay now).2.reportedDelay then
          some (.delayed s.settings.longName (now - last.received))
        else some (.recovered s.settings.longName) := by
  simp [reportDelay, health, h, IsLate]

/-- Without a report, what is remembered stays. -/
theorem reportDelay_of_none {s : Stream α} {now : Time α} (h : (s.reportDelay now).1 = none) :
    (s.reportDelay now).2.reportedDelay = s.reportedDelay := by
  cases hl : s.latest? with
  | none => rw [reportDelay_of_latest_none hl]
  | some last =>
    rw [(reportDelay_of_latest_some hl now).2] at h
    split at h
    · exact Eq.symm ‹_›
    · split at h <;> cases h

/-- **A report flips what the stream remembers**, and is a delay just if the stream is late. -/
theorem reportDelay_of_some {s : Stream α} {now : Time α} {r : DelayReport α}
    (h : (s.reportDelay now).1 = some r) :
    (s.reportDelay now).2.reportedDelay = !s.reportedDelay ∧
      (r.IsDelay ↔ s.reportedDelay = false) ∧ (r.IsDelay ↔ s.IsLate now) ∧
      (∃ last, s.latest? = some last) ∧ r.name = s.settings.longName := by
  cases hl : s.latest? with
  | none =>
    rw [reportDelay_of_latest_none hl] at h
    cases h
  | some last =>
    obtain ⟨hlate, hreport⟩ := reportDelay_of_latest_some hl now
    rw [hreport] at h
    generalize (s.reportDelay now).2.reportedDelay = late at *
    split at h
    · cases h
    · rename_i hne
      have hflip : late = !s.reportedDelay := by
        cases late <;> cases hs : s.reportedDelay <;> simp_all
      have hdelay : (r.IsDelay ↔ late = true) ∧ r.name = s.settings.longName := by
        split at h
        · obtain rfl := Option.some_inj.1 h
          exact ⟨iff_of_true trivial ‹_›, rfl⟩
        · obtain rfl := Option.some_inj.1 h
          exact ⟨iff_of_false id ‹_›, rfl⟩
      refine ⟨hflip, ?_, hdelay.1.trans hlate, ⟨last, rfl⟩, hdelay.2⟩
      rw [hdelay.1, hflip, Bool.not_eq_true']

/-- **Who is late stays late** until a batch arrives. -/
theorem IsLate.of_le [MonotoneScalar α] {s s' : Stream α} {now now' : Time α} (h : s.IsLate now)
    (hnow : now ≤ now') (htiming : s'.timing = s.timing) (hlatest : s'.latest? = s.latest?) :
    s'.IsLate now' := by
  obtain ⟨last, hlast, hlt⟩ := h
  refine ⟨last, hlatest.trans hlast, ?_⟩
  rw [htiming]
  exact MonotoneScalar.lt_sub_of_le hnow hlt

end Stream

namespace Intake

namespace Call

/-- Whether a call is about an arrival on some channel. -/
def IsPush (k : ℕ) : Call α → Prop
  | .push channel _ _ => channel = k
  | .get _ => False

/-- The time of a call that asks for batches. -/
def asked? : Call α → Option (Time α)
  | .push _ _ _ => none
  | .get now => some now

end Call

variable (m : Intake α) (k : ℕ)

/-- What a call has to report about a channel. -/
def report? : Call α → Option (DelayReport α)
  | .push _ _ _ => none
  | .get now => m.streams[k]?.bind fun s => (s.reportDelay now).1

/-- What each of some calls reports about a channel. -/
def reported (k : ℕ) (m : Intake α) : List (Call α) → List (Option (DelayReport α))
  | [] => []
  | c :: calls => m.report? k c :: (m.call c).2.reported k calls

theorem getElem?_reported (calls : List (Call α)) (i : ℕ) :
    (m.reported k calls)[i]? = calls[i]?.map ((m.after (calls.take i)).report? k) := by
  induction calls generalizing m i with
  | nil => rfl
  | cons c calls ih =>
    cases i with
    | zero => rfl
    | succ i => exact ih (m.call c).2 i

theorem reported_append (calls : List (Call α)) (c : Call α) :
    m.reported k (calls ++ [c]) = m.reported k calls ++ [(m.after calls).report? k c] := by
  induction calls generalizing m with
  | nil => rfl
  | cons c' calls ih => exact congrArg (_ :: ·) (ih _)

/-- A report in a run, with the stream that it is about. -/
theorem exists_of_reported {m : Intake α} {k : ℕ} {calls : List (Call α)} {i : ℕ}
    {r : DelayReport α} (h : (m.reported k calls)[i]? = some (some r)) :
    ∃ now s, calls[i]? = some (.get now) ∧ (m.after (calls.take i)).streams[k]? = some s ∧
      (s.reportDelay now).1 = some r := by
  rw [getElem?_reported, Option.map_eq_some_iff] at h
  obtain ⟨c, hc, hr⟩ := h
  cases c with
  | push channel b now => cases hr
  | get now =>
    obtain ⟨s, hs, hr⟩ := Option.bind_eq_some_iff.1 hr
    exact ⟨now, s, hc, hs, hr⟩

/-! ### Reports in turn -/

/-- Some reports about a channel alternate, and the stream remembers the last one. -/
structure Following (m : Intake α) (k : ℕ) (rs : List (DelayReport α)) : Prop where
  alternates : DelayReport.Alternates rs
  remembers : ∀ s, m.streams[k]? = some s → (s.reportedDelay = true ↔ Odd rs.length)

theorem Following.start {channels : List (ChannelSettings α)} {window : WindowSettings α}
    {start : Time α} {m : Intake α} (hm : ofSettings channels window start = .ok m) (k : ℕ) :
    Following m k [] := by
  refine ⟨.nil, fun s hs => ?_⟩
  rw [ofSettings_streams hm, List.getElem?_mapIdx, Option.map_eq_some_iff] at hs
  obtain ⟨c, -, rfl⟩ := hs
  exact iff_of_false Bool.false_ne_true (by simp)

/-- **One call** keeps the reports in turn. -/
theorem Following.call {m : Intake α} {k : ℕ} {rs : List (DelayReport α)} (h : Following m k rs)
    (c : Call α) : Following (m.call c).2 k (rs ++ (m.report? k c).toList) := by
  cases c with
  | push channel b now =>
    have hnone : rs ++ (m.report? k (.push channel b now)).toList = rs := List.append_nil rs
    rw [hnone]
    refine ⟨h.alternates, fun s' hs' => ?_⟩
    rw [streams_push] at hs'
    split at hs'
    · obtain ⟨s, hs, rfl⟩ := Option.map_eq_some_iff.1 hs'
      exact h.remembers s hs
    · exact h.remembers s' hs'
  | get now =>
    cases hs : m.streams[k]? with
    | none =>
      have hnone : rs ++ (m.report? k (.get now)).toList = rs := by simp [report?, hs]
      rw [hnone]
      refine ⟨h.alternates, fun s' hs' => ?_⟩
      rw [streams_get, hs] at hs'
      cases hs'
    | some s =>
      have hflag := h.remembers s hs
      have hreport : m.report? k (.get now) = (s.reportDelay now).1 := by simp [report?, hs]
      have hnext : ∀ s', (m.call (.get now)).2.streams[k]? = some s' →
          s'.reportedDelay = (s.reportDelay now).2.reportedDelay := by
        intro s' hs'
        rw [streams_get, hs, Option.map_some, Option.some_inj] at hs'
        rw [← hs']
        rfl
      rw [hreport]
      cases hr : (s.reportDelay now).1 with
      | none =>
        rw [Option.toList_none, List.append_nil]
        refine ⟨h.alternates, fun s' hs' => ?_⟩
        rw [hnext s' hs', Stream.reportDelay_of_none hr]
        exact hflag
      | some r =>
        obtain ⟨hflip, hdelay, -⟩ := Stream.reportDelay_of_some hr
        rw [Option.toList_some]
        refine ⟨h.alternates.concat ?_, fun s' hs' => ?_⟩
        · rw [hdelay, ← Bool.not_eq_true, hflag, Nat.not_odd_iff_even]
        · rw [hnext s' hs', hflip, Bool.not_eq_true', ← Bool.not_eq_true, hflag,
            List.length_append, List.length_singleton, Nat.odd_add_one]

theorem following_reported {channels : List (ChannelSettings α)} {window : WindowSettings α}
    {start : Time α} {m : Intake α} (hm : ofSettings channels window start = .ok m) (k : ℕ)
    (calls : List (Call α)) : Following (m.after calls) k (m.reported k calls).reduceOption := by
  induction calls using List.reverseRecOn with
  | nil => exact Following.start hm k
  | append_singleton calls c ih =>
    rw [reported_append, List.reduceOption_append, after_append, after_singleton]
    exact ih.call c

/-! ### Between two arrivals -/

/-- What is known about the timing of a channel. -/
def known (m : Intake α) (k : ℕ) : Option (Timing α × Option (Arrival α)) :=
  m.streams[k]?.map fun s => (s.timing, s.latest?)

theorem known_call {c : Call α} (hc : ¬ c.IsPush k) : (m.call c).2.known k = m.known k := by
  cases c with
  | push channel b now =>
    have hne : channel ≠ k := hc
    rw [known, streams_push, if_neg hne, known]
  | get now =>
    rw [known, streams_get, Option.map_map, known]
    refine Option.map_congr fun s _ => ?_
    show ((s.reportDelay now).2.timing, (s.reportDelay now).2.latest?) = _
    rw [s.reportDelay_eq]

/-- **Without an arrival** nothing new is known about a channel. -/
theorem known_after {calls : List (Call α)} (h : ∀ c ∈ calls, ¬ c.IsPush k) :
    (m.after calls).known k = m.known k := by
  induction calls using List.reverseRecOn with
  | nil => rfl
  | append_singleton calls c ih =>
    rw [after_append, after_singleton, known_call _ _ (h c (by simp)),
      ih fun c' hc' => h c' (List.mem_append_left _ hc')]

variable {m k}

/-- Picking from a list, place by place. -/
theorem filterMap_range {ι κ : Type} (f : ι → Option κ) (l : List ι) :
    ((List.range l.length).filterMap fun k => l[k]?.bind f) = l.filterMap f := by
  have hall : (List.range l.length).map (l[·]?) = l.map some := List.ext_getElem (by simp) (by simp)
  calc ((List.range l.length).filterMap fun k => l[k]?.bind f)
      = ((List.range l.length).map (l[·]?)).filterMap (·.bind f) := by
        rw [List.filterMap_map]
        rfl
    _ = l.filterMap f := by
        rw [hall, List.filterMap_map]
        rfl

/-- Nothing is reported before the first arrival. -/
theorem exists_push_of_reported {channels : List (ChannelSettings α)} {window : WindowSettings α}
    {start : Time α} (hm : ofSettings channels window start = .ok m) {calls : List (Call α)}
    {i : ℕ} {r : DelayReport α} (h : (m.reported k calls)[i]? = some (some r)) :
    ∃ c ∈ calls.take i, c.IsPush k := by
  by_contra hnone
  push Not at hnone
  obtain ⟨now, s, -, hs, hr⟩ := exists_of_reported h
  obtain ⟨-, -, -, ⟨last, hlast⟩, -⟩ := Stream.reportDelay_of_some hr
  have hsame := m.known_after k hnone
  rw [known, hs, known, ofSettings_streams hm, List.getElem?_mapIdx] at hsame
  cases hc : channels[k]? with
  | none =>
    rw [hc] at hsame
    cases hsame
  | some c =>
    rw [hc, Option.map_some, Option.map_some, Option.map_some, Option.some_inj] at hsame
    have hfirst : s.latest? = none := congrArg Prod.snd hsame
    rw [hfirst] at hlast
    cases hlast

/-- Between the report of a delay and that of the recovery there is an arrival. -/
theorem exists_push_between [MonotoneScalar α] {calls : List (Call α)}
    (hclock : (calls.filterMap Call.asked?).Pairwise (· ≤ ·)) {i j : ℕ} {r r' : DelayReport α}
    (hij : i < j) (h : (m.reported k calls)[i]? = some (some r))
    (h' : (m.reported k calls)[j]? = some (some r')) (hr : r.IsDelay) (hr' : ¬ r'.IsDelay) :
    ∃ c ∈ (calls.take j).drop i, c.IsPush k := by
  by_contra hnone
  push Not at hnone
  obtain ⟨now, s, hget, hs, hreport⟩ := exists_of_reported h
  obtain ⟨now', s', hget', hs', hreport'⟩ := exists_of_reported h'
  obtain ⟨-, -, hlate, -⟩ := Stream.reportDelay_of_some hreport
  obtain ⟨-, -, hlate', -⟩ := Stream.reportDelay_of_some hreport'
  have hnow : now ≤ now' := by
    rw [List.pairwise_filterMap] at hclock
    obtain ⟨hi, hci⟩ := List.getElem?_eq_some_iff.1 hget
    obtain ⟨hj, hcj⟩ := List.getElem?_eq_some_iff.1 hget'
    refine List.pairwise_iff_getElem.1 hclock i j hi hj hij now ?_ now' ?_
    · rw [hci, Call.asked?]
    · rw [hcj, Call.asked?]
  have hsplit : calls.take j = calls.take i ++ (calls.take j).drop i := by
    have hparts := (List.take_append_drop i (calls.take j)).symm
    rwa [List.take_take, min_eq_left hij.le] at hparts
  have hsame := (m.after (calls.take i)).known_after k hnone
  rw [← after_append, ← hsplit, known, hs', known, hs, Option.map_some, Option.map_some,
    Option.some_inj, Prod.mk.injEq] at hsame
  exact hr' (hlate'.2 ((hlate.1 hr).of_le hnow hsame.1 hsame.2))

/-- Reports name their channel. -/
theorem name_of_reported {channels : List (ChannelSettings α)} {window : WindowSettings α}
    {start : Time α} (hm : ofSettings channels window start = .ok m) {calls : List (Call α)}
    {i : ℕ} {r : DelayReport α} (h : (m.reported k calls)[i]? = some (some r)) :
    ∃ c, channels[k]? = some c ∧ r.name = c.longName := by
  obtain ⟨now, s, -, hs, hr⟩ := exists_of_reported h
  obtain ⟨-, -, -, -, hname⟩ := Stream.reportDelay_of_some hr
  have hchannels := congrArg (·[k]?) (m.after_channels (calls.take i))
  simp only [List.getElem?_map, hs, Option.map_some, ofSettings_channels hm] at hchannels
  exact ⟨s.settings, hchannels.symm, hname⟩

/-- **What a release reports**, channel by channel. -/
theorem release_reports {channels : List (ChannelSettings α)} {window : WindowSettings α}
    {start : Time α} (hm : ofSettings channels window start = .ok m) {calls : List (Call α)} {i : ℕ}
    {now : Time α} (hget : calls[i]? = some (.get now)) :
    ((m.after (calls.take i)).release now).1.reports =
      (List.range channels.length).filterMap fun k => ((m.reported k calls)[i]?).join := by
  have hlength : (m.after (calls.take i)).streams.length = channels.length := by
    rw [← ofSettings_channels hm, ← m.after_channels (calls.take i), List.length_map]
  have hsame : ∀ k, ((m.reported k calls)[i]?).join =
      (m.after (calls.take i)).streams[k]?.bind fun s => (s.reportDelay now).1 := by
    intro k
    rw [getElem?_reported, hget]
    rfl
  simp only [hsame, ← hlength, filterMap_range]
  exact List.filterMap_map

end Intake

/-! ### Exact statistics -/

section exact

variable {ρ : Type} [ExactScalar ρ]

/-- No variance is negative. -/
structure Timing.Nonneg (t : Timing ρ) : Prop where
  latency : 0 ≤ t.latencyVar
  interval : 0 ≤ t.intervalVar

theorem Timing.smooth_nonneg (mean x : ρ) {var : ρ} (h : 0 ≤ var) : 0 ≤ (smooth mean var x).2 := by
  have hgain : (gain : ρ) = 1 / 20 := by
    rw [gain, ExactScalar.ofScientific_eq]
    norm_num
  have hone : (1.0 : ρ) = 1 := by
    rw [ExactScalar.ofScientific_eq]
    norm_num
  have hsquare := mul_self_nonneg (x - (smooth mean var x).1)
  have hvar : (smooth mean var x).2 = 19 / 20 * var +
      1 / 20 * ((x - (smooth mean var x).1) * (x - (smooth mean var x).1)) := by
    simp only [smooth, hgain, hone]
    ring
  rw [hvar]
  positivity

theorem Timing.Nonneg.addInterval {t : Timing ρ} (h : t.Nonneg) (interval : ρ) :
    (t.addInterval interval).Nonneg :=
  ⟨h.latency, smooth_nonneg _ _ h.interval⟩

theorem Timing.Nonneg.addLatency {t : Timing ρ} (h : t.Nonneg) (latency : ρ) :
    (t.addLatency latency).Nonneg :=
  ⟨smooth_nonneg _ _ h.latency, h.interval⟩

theorem Stream.nonneg_push {s : Stream ρ} (h : s.timing.Nonneg) (b : Batch ρ) (now : Time ρ) :
    (s.push b now).timing.Nonneg := by
  cases hl : s.latest? with
  | none =>
    simp only [push, hl]
    exact h.addLatency _
  | some last =>
    simp only [push, hl]
    exact (h.addInterval _).addLatency _

/-- **No variance is ever negative.** -/
theorem Intake.nonneg_after {channels : List (ChannelSettings ρ)} {window : WindowSettings ρ}
    {start : Time ρ} {m : Intake ρ} (hm : ofSettings channels window start = .ok m)
    (calls : List (Call ρ)) {k : ℕ} {s : Stream ρ} (hs : (m.after calls).streams[k]? = some s) :
    s.timing.Nonneg := by
  induction calls using List.reverseRecOn generalizing s with
  | nil =>
    rw [after_nil, ofSettings_streams hm, List.getElem?_mapIdx, Option.map_eq_some_iff] at hs
    obtain ⟨c, -, rfl⟩ := hs
    exact ⟨le_rfl, le_rfl⟩
  | append_singleton calls c ih =>
    rw [after_append, after_singleton] at hs
    cases c with
    | push channel b now =>
      rw [streams_push] at hs
      split at hs
      · obtain ⟨s', hs', rfl⟩ := Option.map_eq_some_iff.1 hs
        exact Stream.nonneg_push (ih hs') b now
      · exact ih hs
    | get now =>
      rw [streams_get] at hs
      obtain ⟨s', hs', rfl⟩ := Option.map_eq_some_iff.1 hs
      have hsame : (s'.reportDelay now).2.timing = s'.timing := by rw [s'.reportDelay_eq]
      show (s'.reportDelay now).2.timing.Nonneg
      rw [hsame]
      exact ih hs'

end exact

/-- With true roots, the limit of patience is three standard deviations above the mean. -/
theorem Timing.Nonneg.patience_eq {t : Timing ℝ} (h : t.Nonneg) :
    ∃ σ : ℝ, 0 ≤ σ ∧ σ ^ 2 = t.intervalVar ∧ t.patience = t.intervalMean + 3 * σ := by
  refine ⟨Real.sqrt t.intervalVar, Real.sqrt_nonneg _, Real.sq_sqrt h.interval, ?_⟩
  have hthree : (tolerance : ℝ) = 3 := by
    rw [tolerance, ExactScalar.ofScientific_eq]
    norm_num
  rw [patience, hthree]
  rfl

/-! ### Runs -/

namespace Intake

/-- **Delays and recoveries alternate**, a delay first, and none is reported before the first
arrival. If the clock of the releases does not run back, there is an arrival between a delay and a
later recovery. A release reports what the channels have to report, in their order, by their names.
In exact arithmetic no variance is negative, so there always is a limit to what is on time. -/
theorem delays_ok [MonotoneScalar α] (channels : List (ChannelSettings α))
    (window : WindowSettings α) (start : Time α) (m : Intake α)
    (hm : ofSettings channels window start = .ok m) (calls : List (Call α)) :
    (∀ k, DelayReport.Alternates (m.reported k calls).reduceOption ∧
      (∀ i r, (m.reported k calls)[i]? = some (some r) →
        (∃ c ∈ calls.take i, c.IsPush k) ∧ ∃ s, channels[k]? = some s ∧ r.name = s.longName) ∧
      ((calls.filterMap Call.asked?).Pairwise (· ≤ ·) →
        ∀ i j r r', i < j → (m.reported k calls)[i]? = some (some r) →
          (m.reported k calls)[j]? = some (some r') → r.IsDelay → ¬ r'.IsDelay →
            ∃ c ∈ (calls.take j).drop i, c.IsPush k)) ∧
    (∀ i now, calls[i]? = some (.get now) →
      ((m.after (calls.take i)).release now).1.reports =
        (List.range channels.length).filterMap fun k => ((m.reported k calls)[i]?).join) ∧
    ∀ (channels : List (ChannelSettings ℝ)) (window : WindowSettings ℝ) (start : Time ℝ)
      (m : Intake ℝ), ofSettings channels window start = .ok m → ∀ (calls : List (Call ℝ)),
        ∀ s ∈ (m.after calls).streams, 0 ≤ s.timing.latencyVar ∧ 0 ≤ s.timing.intervalVar ∧
          ∃ σ : ℝ, 0 ≤ σ ∧ σ ^ 2 = s.timing.intervalVar ∧
            s.timing.patience = s.timing.intervalMean + 3 * σ := by
  refine ⟨fun k => ⟨(following_reported hm k calls).alternates, fun i r hr => ?_, ?_⟩,
    fun i now hget => release_reports hm hget, ?_⟩
  · exact ⟨exists_push_of_reported hm hr, name_of_reported hm hr⟩
  · intro hclock i j r r' hij h h' hr hr'
    exact exists_push_between hclock hij h h' hr hr'
  · intro channels window start m hm calls s hs
    obtain ⟨k, hk⟩ := List.getElem?_of_mem hs
    have hvar := nonneg_after hm calls hk
    exact ⟨hvar.latency, hvar.interval, hvar.patience_eq⟩

/-- A channel that is silent for a second, and comes back. -/
def silentSecond : List (Call Float) :=
  let b : Batch Float := ⟨⟨1⟩, "map", 0, []⟩
  [.push 0 b ⟨1⟩, .get ⟨1.05⟩, .get ⟨2⟩, .push 0 b ⟨2.1⟩, .get ⟨2.15⟩]

theorem delays_ok_silentSecond :
    ∃ m : Intake Float, ofSettings [.usual] .usual ⟨0⟩ = .ok m ∧
      m.reported 0 silentSecond = [none, none, some (.delayed "detected_objects" 1), none,
        some (.recovered "detected_objects")] ∧
      ∃ c ∈ (silentSecond.take 4).drop 2, c.IsPush 0 := by
  obtain ⟨m, hm⟩ : ∃ m : Intake Float, ofSettings [.usual] .usual ⟨0⟩ = .ok m := ⟨_, rfl⟩
  have hreports : m.reported 0 silentSecond = [none, none, some (.delayed "detected_objects" 1),
      none, some (.recovered "detected_objects")] := by
    cases hm
    decide +kernel
  refine ⟨m, hm, hreports, ?_⟩
  have hclock : (silentSecond.filterMap Call.asked?).Pairwise (· ≤ ·) := by decide +kernel
  obtain ⟨hreported, -⟩ := delays_ok [.usual] .usual ⟨0⟩ m hm silentSecond
  exact (hreported 0).2.2 hclock 2 4 _ _ (by decide) (congrArg (·[2]?) hreports)
    (congrArg (·[4]?) hreports) trivial id

end Intake

end TrackFusion
