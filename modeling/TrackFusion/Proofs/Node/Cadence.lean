import TrackFusion.Proofs.Differences
import TrackFusion.Proofs.Input.Window
import TrackFusion.Proofs.Node.Runs

/-!
# When a node publishes

With delay compensation a node publishes by the clock, and waits for a share of the publishing
period in between. Without it, it publishes with the batches, and the intake keeps their order.

* `Node.published`, `Node.stamps`: what the calls of a run publish, and at which times.
* `Node.call_paced`, `Paced.after`: one call by the clock, and a run.
* `Node.trigger_worked`, `InStep.after`: one trigger with the batches, and a run.
* `Node.cadence_ok`: the two together.
-/

namespace TrackFusion

variable {α : Type} [Scalar α]

/-- The time that a publication is for. -/
def Publication.stamp (p : Publication α) : Time α := p.confirmed.stamp

namespace Node

/-! ### Runs -/

/-- What each of some calls publishes. -/
def published (n : Node α) : List (Call α) → List (Option (Publication α))
  | [] => []
  | c :: calls => (n.call c).2 :: (n.call c).1.published calls

/-- The stamps of all that some calls publish. -/
def stamps (n : Node α) (calls : List (Call α)) : List (Time α) :=
  (n.published calls).filterMap (Option.map Publication.stamp)

/-- The stamps of the batches that a release at a time has worked through, and not skipped. -/
def worked (n : Node α) (now : Time α) : List (Time α) :=
  ((n.drainRounds now).filter fun q => (q.1.process? q.2).isSome).map fun q => q.2.stamp

/-- The node is not told to publish. -/
def Call.Unforced : Call α → Prop
  | .publish _ => False
  | _ => True

/-- The clock, as the node reads it when it may act. -/
def Call.clock? : Call α → Option (Time α)
  | .trigger now | .tick now | .publish now => some now
  | _ => none

theorem published_append (n : Node α) (calls : List (Call α)) (c : Call α) :
    n.published (calls ++ [c]) = n.published calls ++ [((n.after calls).call c).2] := by
  induction calls generalizing n with
  | nil => rfl
  | cons c' calls ih => exact congrArg (_ :: ·) (ih _)

theorem stamps_append (n : Node α) (calls : List (Call α)) (c : Call α) :
    n.stamps (calls ++ [c]) =
      n.stamps calls ++ (((n.after calls).call c).2.map Publication.stamp).toList := by
  rw [stamps, published_append, List.filterMap_append, stamps]
  cases ((n.after calls).call c).2 <;> rfl

/-! ### One call -/

/-- **A trigger without delay compensation** publishes if a batch has been worked through, at the
stamp of the last one. -/
theorem trigger_worked (n : Node α) (hc : n.settings.compensateDelay = false) (now : Time α) :
    (n.trigger now).2.map Publication.stamp = (n.worked now).getLast? ∧
      (n.trigger now).1 = (n.drain now).1 := by
  have hlast : (n.drain now).2 = (n.worked now).getLast? := processAll_snd _ _
  have hset := (n.drain_frame now).1
  rw [trigger_eq]
  split
  · rename_i hempty
    rw [worked, drainRounds, List.isEmpty_iff.1 hempty]
    exact ⟨rfl, rfl⟩
  · rw [hset, hc]
    refine ⟨?_, rfl⟩
    rw [← hlast]
    cases (n.drain now).2 <;> rfl

/-- **A tick without delay compensation** does nothing. -/
theorem tick_idle (n : Node α) (hc : n.settings.compensateDelay = false) (now : Time α) :
    n.tick now = (n, none) := by
  rw [tick_eq, overdue, hc]
  rfl

/-- **A call with delay compensation** publishes at its own time, or leaves the time of the last
publication as it is. What has been waited for is told by the call. -/
theorem call_paced (n : Node α) (hc : n.settings.compensateDelay = true) {c : Call α}
    (hforced : c.Unforced) :
    ((n.call c).2 = none ∧ (n.call c).1.lastPublished = n.lastPublished) ∨
      ∃ now, c.clock? = some now ∧ (n.call c).2.map Publication.stamp = some now ∧
        (n.call c).1.lastPublished = now ∧
        (n.settings.publishPeriod * minInterval < now - n.lastPublished ∨
          ¬ (now - n.lastPublished) < n.settings.publishPeriod * maxInterval) := by
  cases c with
  | push channel b now =>
    obtain ⟨m, hm, -, -⟩ := n.push_frame channel b now
    exact .inl ⟨rfl, by rw [hm]⟩
  | trigger now =>
    obtain ⟨hset, hlast, -⟩ := n.drain_frame now
    rw [call, trigger_eq]
    split
    · exact .inl ⟨rfl, hlast⟩
    · rw [hset, hc]
      by_cases hrest : (n.drain now).1.rested now = true
      · rw [if_pos hrest]
        refine .inr ⟨now, rfl, rfl, rfl, .inl ?_⟩
        rw [rested, hset, hlast] at hrest
        exact of_decide_eq_true hrest
      · rw [if_neg hrest]
        exact .inl ⟨rfl, hlast⟩
  | tick now =>
    rw [call, tick_eq]
    split
    · rename_i hover
      rw [overdue, hc] at hover
      exact .inr ⟨now, rfl, rfl, rfl, .inr (by simpa using hover)⟩
    · exact .inl ⟨rfl, rfl⟩
  | process b =>
    refine .inl ⟨rfl, ?_⟩
    rw [call]
    cases hb : n.process? b with
    | none => rfl
    | some n' => exact (process?_frame hb).2.1
  | publish now => cases hforced

/-! ### With delay compensation -/

/-- Stamps that never go back, and are not after the last one that counts. -/
structure Rising (stamps : List (Time α)) (last : Time α) : Prop where
  forward : stamps.Pairwise (· ≤ ·)
  before : ∀ t ∈ stamps, t ≤ last

theorem Rising.nil (last : Time α) : Rising [] last := ⟨.nil, by simp⟩

theorem Rising.concat {stamps : List (Time α)} {t : Time α} (h : Rising stamps t) (ht : t ≤ t) :
    Rising (stamps ++ [t]) t := by
  refine ⟨List.pairwise_append.2 ⟨h.forward, List.pairwise_singleton _ _, ?_⟩, fun u hu => ?_⟩
  · simpa using h.before
  · rcases List.mem_append.1 hu with hu | hu
    · exact h.before u hu
    · exact List.mem_singleton.1 hu ▸ ht

/-- The clock shows times, though in any order, and the shares of the publishing period can be told
apart by it. -/
structure Clocked (s : Settings α) (start : Time α) (calls : List (Call α)) : Prop where
  start : Scalar.isFinite start.seconds = true
  calls : ∀ c ∈ calls, ∀ now, c.clock? = some now → Scalar.isFinite now.seconds = true
  nonneg : 0 ≤ s.publishPeriod * minInterval
  apart : s.publishPeriod * minInterval < s.publishPeriod * maxInterval

theorem Clocked.of_subset {s : Settings α} {start : Time α} {calls calls' : List (Call α)}
    (h : Clocked s start calls') (hsub : calls ⊆ calls') : Clocked s start calls :=
  ⟨h.start, fun c hc => h.calls c (hsub hc), h.nonneg, h.apart⟩

/-- How the publications up to now follow each other by the clock. -/
structure Paced (s : Settings α) (start : Time α) (stamps : List (Time α)) (n : Node α) :
    Prop where
  settings : n.settings = s
  last : n.lastPublished = (stamps.getLast?).getD start
  finite : Scalar.isFinite n.lastPublished.seconds = true
  waits : (start :: stamps).IsChain fun a b : Time α => s.publishPeriod * minInterval < b - a
  rising : Rising stamps n.lastPublished

theorem Paced.init {s : Settings α} {start : Time α} {n : Node α} (hs : n.settings = s)
    (hlast : n.lastPublished = start) (hfin : Scalar.isFinite start.seconds = true) :
    Paced s start [] n :=
  ⟨hs, hlast, hlast ▸ hfin, .singleton start, .nil _⟩

variable [SignedScalar α]

/-- What has passed when a call publishes is more than the smaller share of the period. -/
theorem waited {p q : α} {now last : Time α} (hnow : Scalar.isFinite now.seconds = true)
    (hlast : Scalar.isFinite last.seconds = true) (hp : 0 ≤ p) (hpq : p < q)
    (h : p < now - last ∨ ¬ (now - last) < q) : p < now - last ∧ last ≤ now := by
  have hnum := SignedScalar.isNaN_of_isFinite hnow
  have hnum' := SignedScalar.isNaN_of_isFinite hlast
  have hwait : p < now - last := by
    rcases h with h | h
    · exact h
    · -- the difference is a number, so that it is not less only if it is at least as much
      have hdiff : Scalar.isNaN (now - last) = false := OrderedScalar.isNaN_sub hnum hlast
      have hq := (OrderedScalar.isNaN_of_le (OrderedScalar.le_of_lt hpq)).2
      exact OrderedScalar.lt_of_lt_of_le hpq (OrderedScalar.le_of_not_lt hdiff hq h)
  exact ⟨hwait, SignedScalar.le_of_sub_pos hnum' hnum (OrderedScalar.lt_of_le_of_lt hp hwait)⟩

variable {s : Settings α} {start : Time α} {n : Node α} {stamps : List (Time α)}

/-- Before what is no number there is nothing, so that only numbers have to be compared. -/
theorem Rising.mono {t u : Time α} (h : Rising stamps t)
    (hle : Scalar.isNaN t.seconds = false → t ≤ u) : Rising stamps u := by
  refine ⟨h.forward, fun v hv => ?_⟩
  have hnum := (OrderedScalar.isNaN_of_le (α := α) (h.before v hv)).2
  exact Time.le_trans (h.before v hv) (hle hnum)

/-- **One call keeps the pace**, and publishes at its own time if at all. -/
theorem Paced.call (h : Paced s start stamps n) (hc : s.compensateDelay = true) {c : Call α}
    (hforced : c.Unforced) (hclock : Clocked s start [c]) :
    Paced s start (stamps ++ ((n.call c).2.map Publication.stamp).toList) (n.call c).1 ∧
      ∀ q ∈ (n.call c).2, c.clock? = some q.stamp := by
  have hset : (n.call c).1.settings = s := (call_settings n c).trans h.settings
  rcases n.call_paced (h.settings ▸ hc) hforced with
    ⟨hnone, hlast⟩ | ⟨now, hnow, hstamp, hlast, hwait⟩
  · rw [hnone, Option.map_none, Option.toList_none, List.append_nil]
    exact ⟨⟨hset, hlast ▸ h.last, hlast ▸ h.finite, h.waits, hlast ▸ h.rising⟩, by simp⟩
  · have hfin := hclock.calls c (List.mem_singleton_self c) now hnow
    rw [h.settings] at hwait
    obtain ⟨hwaited, hle⟩ := waited hfin h.finite hclock.nonneg hclock.apart hwait
    have hself : now ≤ now :=
      OrderedScalar.le_refl (α := α) (SignedScalar.isNaN_of_isFinite hfin)
    rw [hstamp, Option.toList_some]
    refine ⟨⟨hset, by simpa using hlast, hlast ▸ hfin, ?_, ?_⟩, ?_⟩
    · rw [← List.cons_append]
      refine List.isChain_append.2 ⟨h.waits, .singleton now, fun a ha b hb => ?_⟩
      rw [List.getLast?_cons, ← h.last] at ha
      cases ha
      cases hb
      exact hwaited
    · rw [hlast]
      exact (h.rising.mono fun _ => hle).concat hself
    · intro q hq
      rw [hq] at hstamp
      rw [hnow, ← hstamp]
      rfl

theorem Paced.after (h : Paced s start [] n) (hc : s.compensateDelay = true)
    {calls : List (Call α)} (hcalls : ∀ c ∈ calls, c.Unforced) (hclock : Clocked s start calls) :
    Paced s start (n.stamps calls) (n.after calls) ∧
      List.Forall₂ (fun c p => ∀ q ∈ p, c.clock? = some q.stamp) calls
        (n.published calls) := by
  induction calls using List.reverseRecOn with
  | nil => exact ⟨h, .nil⟩
  | append_singleton calls c ih =>
    obtain ⟨hpaced, htimes⟩ := ih (fun d hd => hcalls d (List.mem_append_left _ hd))
      (hclock.of_subset (List.subset_append_left _ _))
    obtain ⟨hcall, htime⟩ := hpaced.call hc (hcalls c (by simp))
      (hclock.of_subset (List.subset_append_right _ _))
    rw [stamps_append, published_append, after_append, after_singleton]
    exact ⟨hcall, List.rel_append htimes (.cons htime .nil)⟩

/-! ### Without delay compensation -/

/-- How the publications up to now follow each other with the batches. -/
structure InStep (s : Settings α) (stamps : List (Time α)) (n : Node α) : Prop where
  settings : n.settings = s
  window : n.intake.settings = s.window
  rising : Rising stamps n.intake.latest

/-- What is released is not before anything that has been published. -/
theorem InStep.release (h : InStep s stamps n)
    (hfin : Scalar.isFinite s.window.acceptableLatency = true) (now : Time α) :
    Rising stamps (n.intake.release now).2.latest ∧
      ∀ b ∈ (n.intake.release now).1.batches,
        Rising stamps b.stamp ∧ b.stamp ≤ (n.intake.release now).2.latest := by
  have hfin' : Scalar.isFinite n.intake.settings.acceptableLatency = true := by rwa [h.window]
  refine ⟨h.rising.mono (Intake.advances_release now hfin').le,
    fun b hb => ⟨h.rising.mono fun hnum => ?_, n.intake.release_latest_le now hb⟩⟩
  have hnew := (n.intake.release_window now hfin' hb).2.1
  exact OrderedScalar.le_of_not_lt (n.intake.isNaN_of_mem_release now hb) hnum hnew

/-- **One call keeps in step with the batches.** -/
theorem InStep.call (h : InStep s stamps n) (hc : s.compensateDelay = false)
    (hfin : Scalar.isFinite s.window.acceptableLatency = true) {c : Call α}
    (hforced : c.Unforced) :
    InStep s (stamps ++ ((n.call c).2.map Publication.stamp).toList) (n.call c).1 := by
  have hset : (n.call c).1.settings = s := (call_settings n c).trans h.settings
  have hquiet : ∀ m : Intake α, m.settings = s.window → Rising stamps m.latest →
      ∀ n' : Node α, n'.settings = s → n'.intake = m → InStep s (stamps ++ []) n' :=
    fun m hm hrising n' hs hn' => ⟨hs, hn' ▸ hm, by rwa [List.append_nil, hn']⟩
  cases c with
  | push channel b now =>
    obtain ⟨m, hm, hwindow, hlatest⟩ := n.push_frame channel b now
    exact hquiet m (hwindow.trans h.window) (hlatest ▸ h.rising) _ hset (by rw [hm])
  | trigger now =>
    obtain ⟨hstamp, hdrain⟩ := n.trigger_worked (h.settings ▸ hc) now
    obtain ⟨-, -, hintake⟩ := n.drain_frame now
    obtain ⟨hrising, hrelease⟩ := h.release hfin now
    have hnode : (n.trigger now).1.intake = (n.intake.release now).2 := by rw [hdrain, hintake]
    show InStep s (stamps ++ ((n.trigger now).2.map Publication.stamp).toList) (n.trigger now).1
    cases hlast : (n.worked now).getLast? with
    | none =>
      rw [hstamp, hlast]
      exact hquiet (n.intake.release now).2 h.window hrising _ hset hnode
    | some t =>
      obtain ⟨q, hq, rfl⟩ := List.mem_map.1 (List.mem_of_getLast? hlast)
      obtain ⟨hnew, hle⟩ := hrelease q.2 (mem_of_mem_rounds (List.mem_of_mem_filter hq))
      rw [hstamp, hlast, Option.toList_some]
      refine ⟨hset, hnode ▸ h.window, ?_⟩
      rw [hnode]
      exact (hnew.concat (Time.le_refl_of_le hle)).mono fun _ => hle
  | tick now =>
    have hidle := n.tick_idle (h.settings ▸ hc) now
    show InStep s (stamps ++ ((n.tick now).2.map Publication.stamp).toList) (n.tick now).1
    rw [hidle]
    exact hquiet _ h.window h.rising _ h.settings rfl
  | process b =>
    refine hquiet _ h.window h.rising _ hset ?_
    rw [Node.call]
    cases hb : n.process? b with
    | none => rfl
    | some n' => exact (process?_frame hb).2.2
  | publish now => cases hforced

theorem InStep.after (h : InStep s [] n) (hc : s.compensateDelay = false)
    (hfin : Scalar.isFinite s.window.acceptableLatency = true) {calls : List (Call α)}
    (hcalls : ∀ c ∈ calls, c.Unforced) : InStep s (n.stamps calls) (n.after calls) := by
  induction calls using List.reverseRecOn with
  | nil => exact h
  | append_singleton calls c ih =>
    have hbefore := ih fun d hd => hcalls d (List.mem_append_left _ hd)
    rw [stamps_append, after_append, after_singleton]
    exact hbefore.call hc hfin (hcalls c (by simp))

/-! ### Both -/

/-- **A node publishes at its pace.** It is left to publish by itself, at most once with each call,
and the stamps of what it publishes never go back. With delay compensation, the stamps are the times
of the calls, and more than a share of the publishing period lies between two of them, with the
start as the first one. Without it, ticks do nothing, and a trigger publishes if a batch has been
worked through, at the stamp of the last one. -/
theorem cadence_ok [Json.Number α] (s : Settings α) (frames : FrameLookup α) (start : Time α)
    (ids : IdStream) (n : Node α) (hn : ofSettings s frames start ids = .ok n)
    (calls : List (Call α)) (hcalls : ∀ c ∈ calls, c.Unforced)
    (hclock : s.compensateDelay = true → Clocked s start calls)
    (hfin : s.compensateDelay = false →
      Scalar.isFinite s.window.acceptableLatency = true) :
    (n.stamps calls).Pairwise (· ≤ ·) ∧
    (s.compensateDelay = true →
      List.Forall₂ (fun c p => ∀ q ∈ p, c.clock? = some q.stamp) calls (n.published calls) ∧
      (start :: n.stamps calls).IsChain
        (fun a b : Time α => s.publishPeriod * minInterval < b - a) ∧
      (n.after calls).lastPublished = ((n.stamps calls).getLast?).getD start) ∧
    (s.compensateDelay = false → ∀ now,
      (n.after calls).tick now = (n.after calls, none) ∧
      ((n.after calls).trigger now).2.map Publication.stamp =
        ((n.after calls).worked now).getLast?) := by
  obtain ⟨-, hm, -, hs, -, -, hlast⟩ := ofSettings_cases hn
  cases hc : s.compensateDelay with
  | true =>
    have hclock := hclock hc
    obtain ⟨hpaced, htimes⟩ := (Paced.init hs hlast hclock.start).after hc hcalls hclock
    exact ⟨hpaced.rising.forward, fun _ => ⟨htimes, hpaced.waits, hpaced.last⟩, by simp⟩
  | false =>
    have hstart : InStep s [] n := ⟨hs, Intake.ofSettings_settings hm, .nil _⟩
    have hstep := hstart.after hc (hfin hc) hcalls
    refine ⟨hstep.rising.forward, by simp, fun _ now => ⟨?_, ?_⟩⟩
    · exact tick_idle _ (hstep.settings ▸ hc) now
    · exact (trigger_worked _ (hstep.settings ▸ hc) now).1

/-- Settings under which messages are published in time. -/
def punctual : Settings α := { Settings.usual with compensateDelay := true }

/-- A car is seen, and then the clock jumps back and forth. -/
def jumps : List (Call α) :=
  [.push 0 oneCar ⟨1⟩, .trigger ⟨1.25⟩, .tick ⟨0.5⟩, .tick ⟨1.3⟩, .tick ⟨2.0⟩]

theorem cadence_ok_jumps :
    ∃ n : Node Float, ofSettings punctual still ⟨0⟩ = .ok n ∧
      (∀ c ∈ jumps (α := Float), c.Unforced) ∧
      ((punctual (α := Float)).compensateDelay = true → Clocked punctual (⟨0⟩ : Time Float) jumps) ∧
      n.stamps jumps = [⟨1.25⟩, ⟨2.0⟩] ∧ (n.stamps jumps).Pairwise (· ≤ ·) ∧
      (n.after jumps).lastPublished = ⟨2.0⟩ := by
  obtain ⟨n, hn⟩ : ∃ n : Node Float, ofSettings punctual still ⟨0⟩ = .ok n := ⟨_, rfl⟩
  have hcalls : ∀ c ∈ jumps (α := Float), c.Unforced := by simp [jumps, Call.Unforced]
  have hclock : Clocked punctual (⟨0⟩ : Time Float) jumps := by
    refine ⟨by decide +kernel, ?_, by decide +kernel, by decide +kernel⟩
    simp only [jumps, List.forall_mem_cons, Call.clock?, Option.some.injEq, forall_eq']
    decide +kernel
  obtain ⟨hforward, htimes, -⟩ := cadence_ok punctual still ⟨0⟩ .counting n hn jumps hcalls
    (fun _ => hclock) (fun h => by cases h)
  have hstamps : n.stamps jumps = [⟨1.25⟩, ⟨2.0⟩] := by
    cases hn
    decide +kernel
  obtain ⟨-, -, hlast⟩ := htimes rfl
  exact ⟨n, hn, hcalls, fun _ => hclock, hstamps, hforward, by rw [hlast, hstamps]; rfl⟩

/-- A tick at what is not a time counts as overdue, and so does the next one, whenever it is. -/
theorem not_cadence_of_nan :
    ∃ n : Node Float, ofSettings punctual still ⟨0⟩ = .ok n ∧
      (n.stamps [.tick ⟨1⟩, .tick ⟨0 / 0⟩, .tick ⟨-5⟩]).length = 3 ∧
      ¬ (n.stamps [.tick ⟨1⟩, .tick ⟨0 / 0⟩, .tick ⟨-5⟩]).Pairwise (· ≤ ·) ∧
      ¬ ((⟨0⟩ : Time Float) :: n.stamps [.tick ⟨1⟩, .tick ⟨0 / 0⟩, .tick ⟨-5⟩]).IsChain
        (fun a b : Time Float =>
          (punctual (α := Float)).publishPeriod * minInterval < b - a) := by
  obtain ⟨n, hn⟩ : ∃ n : Node Float, ofSettings punctual still ⟨0⟩ = .ok n := ⟨_, rfl⟩
  refine ⟨n, hn, ?_⟩
  cases hn
  decide +kernel

end Node

end TrackFusion
