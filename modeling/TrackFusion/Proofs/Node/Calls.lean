import Mathlib
import TrackFusion.Node

/-!
# Calls of a node

A node is driven by calls: batches arrive, and the node may act. It may also be handed a batch, or
told to publish.

* `Node.Call`, `Node.call`: one call, with what it publishes.
* `Node.after`: the node after some calls.
* `Node.callRounds`: the batches that a call works through, each with the node that it finds.
* `Node.trigger_eq`, `tick_eq`: what a call does, piece by piece.
* `Node.process?_frame`, `drain_frame`, `push_frame`: what the pieces leave alone.
* `Node.call_induction`, `after_induction`: what every piece keeps holds along a run.
-/

namespace TrackFusion

variable {α : Type} [Scalar α]

namespace Node

/-- What the caller of a node may do. -/
inductive Call (α : Type) where
  | push (channel : ℕ) (b : Batch α) (now : Time α)
  | trigger (now : Time α)
  | tick (now : Time α)
  | process (b : Batch α)
  | publish (now : Time α)

/-- The node after a call, and what it publishes. A batch for no channel changes nothing, and
neither does one that is skipped. -/
def call (n : Node α) : Call α → Node α × Option (Publication α)
  | .push channel b now => ((n.push? channel b now).getD n, none)
  | .trigger now => n.trigger now
  | .tick now => n.tick now
  | .process b => ((n.process? b).getD n, none)
  | .publish now => ((n.publish now).1, some (n.publish now).2)

/-- The node after some calls. -/
def after (n : Node α) (calls : List (Call α)) : Node α :=
  calls.foldl (fun n c => (n.call c).1) n

@[simp] theorem after_nil (n : Node α) : n.after [] = n := rfl

@[simp] theorem after_append (n : Node α) (calls calls' : List (Call α)) :
    n.after (calls ++ calls') = (n.after calls).after calls' :=
  List.foldl_append

theorem after_singleton (n : Node α) (c : Call α) : n.after [c] = (n.call c).1 := rfl

/-! ### Batches -/

/-- **What a batch does** that is not skipped. -/
theorem process?_cases {n n' : Node α} {b : Batch α} (h : n.process? b = some n') :
    ∃ ego seen p, n.locate? b = some (ego, seen) ∧ n.pair? seen = some p ∧
      n' = { n with roster := (n.roster.absorb seen ego p).prune b.stamp } := by
  rw [process?] at h
  cases hl : n.locate? b with
  | none =>
    rw [hl] at h
    cases h
  | some l =>
    obtain ⟨ego, seen⟩ := l
    cases hp : n.pair? seen with
    | none =>
      simp [hl, hp] at h
    | some p =>
      simp only [hl, hp, Option.bind_eq_bind, Option.bind_some, Option.pure_def,
        Option.some.injEq] at h
      exact ⟨ego, seen, p, rfl, hp, h.symm⟩

/-- A batch changes neither the settings nor the intake nor the time of the last publication. -/
theorem process?_frame {n n' : Node α} {b : Batch α} (h : n.process? b = some n') :
    n'.settings = n.settings ∧ n'.lastPublished = n.lastPublished ∧ n'.intake = n.intake := by
  obtain ⟨ego, seen, p, -, -, rfl⟩ := process?_cases h
  exact ⟨rfl, rfl, rfl⟩

/-- The batch that a node has located: the same detections at the same time, in the world frame. -/
theorem locate?_cases {n : Node α} {b seen : Batch α} {ego : Isometry α}
    (h : n.locate? b = some (ego, seen)) :
    n.frames n.settings.egoFrame n.settings.worldFrame b.stamp = some ego ∧
      b.inFrame? n.settings.worldFrame n.frames = some seen := by
  rw [locate?] at h
  cases he : n.frames n.settings.egoFrame n.settings.worldFrame b.stamp with
  | none => simp [he] at h
  | some e =>
    cases hs : b.inFrame? n.settings.worldFrame n.frames with
    | none => simp [he, hs] at h
    | some s =>
      simp only [he, hs, Option.bind_eq_bind, Option.bind_some, Option.pure_def, Option.some.injEq,
        Prod.mk.injEq] at h
      obtain ⟨rfl, rfl⟩ := h
      exact ⟨rfl, rfl⟩

theorem inFrame?_cases {b seen : Batch α} {target : String} {frames : FrameLookup α}
    (h : b.inFrame? target frames = some seen) :
    seen.stamp = b.stamp ∧ ∃ f : Detection α → Detection α, seen.objects = b.objects.map f := by
  rw [Batch.inFrame?] at h
  split at h
  · cases h
    exact ⟨rfl, id, (List.map_id _).symm⟩
  · obtain ⟨m, -, rfl⟩ := Option.map_eq_some_iff.1 h
    exact ⟨rfl, Detection.moved m, rfl⟩

theorem locate?_stamp {n : Node α} {b seen : Batch α} {ego : Isometry α}
    (h : n.locate? b = some (ego, seen)) : seen.stamp = b.stamp :=
  (inFrame?_cases (locate?_cases h).2).1

theorem processAll_concat (n : Node α) (bs : List (Batch α)) (b : Batch α) :
    n.processAll (bs ++ [b]) =
      match (n.processAll bs).1.process? b with
      | some n' => (n', some b.stamp)
      | none => n.processAll bs := by
  rw [processAll, List.foldl_append, List.foldl_cons, List.foldl_nil]
  rfl

theorem processAll_concat_fst (n : Node α) (bs : List (Batch α)) (b : Batch α) :
    (n.processAll (bs ++ [b])).1 = ((n.processAll bs).1.process? b).getD (n.processAll bs).1 := by
  rw [processAll_concat]
  cases (n.processAll bs).1.process? b <;> rfl

/-- The batches of a list, each with the node that it finds. -/
def rounds (n : Node α) : List (Batch α) → List (Node α × Batch α)
  | [] => []
  | b :: bs => (n, b) :: ((n.process? b).getD n).rounds bs

theorem processAll_cons_fst (n : Node α) (b : Batch α) (bs : List (Batch α)) :
    (n.processAll (b :: bs)).1 = (((n.process? b).getD n).processAll bs).1 := by
  induction bs using List.reverseRecOn with
  | nil => exact n.processAll_concat_fst [] b
  | append_singleton bs c ih =>
    rw [← List.cons_append, processAll_concat_fst, processAll_concat_fst, ih]

/-- What every batch keeps holds after all of them. -/
theorem processAll_induction {P : Node α → Prop} {n : Node α} {bs : List (Batch α)}
    (hstep : ∀ (m : Node α) (b : Batch α) m', b ∈ bs → m.process? b = some m' → P m → P m')
    (h : P n) : P (n.processAll bs).1 := by
  induction bs using List.reverseRecOn with
  | nil => exact h
  | append_singleton bs b ih =>
    have hbs := ih fun m c m' hc => hstep m c m' (List.mem_append_left _ hc)
    rw [processAll_concat_fst]
    cases hb : (n.processAll bs).1.process? b with
    | none => exact hbs
    | some m' => exact hstep _ b m' (by simp) hb hbs

/-- **The last batch that is not skipped** leaves the node as it is after all of them. -/
theorem processAll_last {n : Node α} {bs : List (Batch α)} {t : Time α}
    (h : (n.processAll bs).2 = some t) :
    ∃ (m : Node α) (b : Batch α), m.process? b = some (n.processAll bs).1 ∧ b.stamp = t := by
  induction bs using List.reverseRecOn with
  | nil => cases h
  | append_singleton bs b ih =>
    rw [processAll_concat] at h ⊢
    cases hb : (n.processAll bs).1.process? b with
    | none =>
      rw [hb] at h
      exact ih h
    | some m' =>
      rw [hb] at h
      exact ⟨_, b, hb, Option.some.inj h⟩

theorem mem_of_mem_rounds {n : Node α} {bs : List (Batch α)} {q : Node α × Batch α}
    (h : q ∈ n.rounds bs) : q.2 ∈ bs := by
  induction bs generalizing n with
  | nil => cases h
  | cons b bs ih =>
    rcases List.mem_cons.1 h with rfl | h
    · exact List.mem_cons_self
    · exact List.mem_cons_of_mem b (ih h)

theorem processAll_cons_snd (n : Node α) (b : Batch α) (bs : List (Batch α)) :
    (n.processAll (b :: bs)).2 = ((((n.process? b).getD n).processAll bs).2.or
      ((n.process? b).map fun _ => b.stamp)) := by
  induction bs using List.reverseRecOn with
  | nil =>
    rw [show [b] = [] ++ [b] from rfl, processAll_concat]
    show (match n.process? b with | some n' => (n', some b.stamp) | none => (n, none)).2 = _
    cases n.process? b <;> rfl
  | append_singleton bs c ih =>
    rw [← List.cons_append, processAll_concat, processAll_concat, processAll_cons_fst]
    cases (((n.process? b).getD n).processAll bs).1.process? c with
    | none => exact ih
    | some n' => rfl

/-- Of the batches of a list, the last one that is not skipped tells the time. -/
theorem processAll_snd (n : Node α) (bs : List (Batch α)) :
    (n.processAll bs).2 = (((n.rounds bs).filter fun q => (q.1.process? q.2).isSome).map
      fun q => q.2.stamp).getLast? := by
  induction bs generalizing n with
  | nil => rfl
  | cons b bs ih =>
    rw [processAll_cons_snd, ih, rounds]
    cases hb : n.process? b with
    | none => simp [hb]
    | some n' => simp [hb, List.getLast?_cons]

/-! ### Calls -/

/-- The node after the batches that are released at a time, and the stamp of the last one that was
not skipped. -/
def drain (n : Node α) (now : Time α) : Node α × Option (Time α) :=
  ({ n with intake := (n.intake.release now).2 }).processAll (n.intake.release now).1.batches

/-- The batches that are released at a time, each with the node that it finds. -/
def drainRounds (n : Node α) (now : Time α) : List (Node α × Batch α) :=
  ({ n with intake := (n.intake.release now).2 }).rounds (n.intake.release now).1.batches

theorem drain_frame (n : Node α) (now : Time α) :
    (n.drain now).1.settings = n.settings ∧ (n.drain now).1.lastPublished = n.lastPublished ∧
      (n.drain now).1.intake = (n.intake.release now).2 := by
  refine processAll_induction (P := fun m => m.settings = n.settings ∧
    m.lastPublished = n.lastPublished ∧ m.intake = (n.intake.release now).2)
    (fun m b m' _ hb h => ?_) ⟨rfl, rfl, rfl⟩
  obtain ⟨hset, hlast, hintake⟩ := process?_frame hb
  exact ⟨hset.trans h.1, hlast.trans h.2.1, hintake.trans h.2.2⟩

/-- Whether a tick acts. -/
def overdue (n : Node α) (now : Time α) : Bool :=
  n.settings.compensateDelay &&
    !decide (now - n.lastPublished < n.settings.publishPeriod * maxInterval)

/-- Whether a trigger publishes extrapolated tracks. -/
def rested (n : Node α) (now : Time α) : Bool :=
  decide (n.settings.publishPeriod * minInterval < now - n.lastPublished)

/-- **What a trigger does.** If nothing is released it is all the same. -/
theorem trigger_eq (n : Node α) (now : Time α) :
    n.trigger now =
      if (n.intake.release now).1.batches.isEmpty then ((n.drain now).1, none)
      else if !(n.drain now).1.settings.compensateDelay then
        ((n.drain now).1, (n.drain now).2.map (n.drain now).1.publicationAt)
      else if (n.drain now).1.rested now then (n.drain now).1.call (.publish now)
      else ((n.drain now).1, none) := by
  rw [trigger, drain]
  cases hr : n.intake.release now with
  | mk released intake =>
    by_cases hempty : released.batches.isEmpty = true
    · have hnil : released.batches = [] := List.isEmpty_iff.1 hempty
      simp only [hnil]
      rfl
    · simp only [hempty, rested, decide_eq_true_eq]
      rfl

/-- **What a tick does.** -/
theorem tick_eq (n : Node α) (now : Time α) :
    n.tick now = if n.overdue now then (n.drain now).1.call (.publish now) else (n, none) := by
  by_cases hc : n.settings.compensateDelay = true
  · by_cases hlt : now - n.lastPublished < n.settings.publishPeriod * maxInterval
    · simp [tick, overdue, hc, hlt]
    · simp only [tick, overdue, hc, hlt]
      rfl
  · simp [tick, overdue, hc]

/-- The batches that a call works through, each with the node that it finds. -/
def callRounds (n : Node α) : Call α → List (Node α × Batch α)
  | .push .. => []
  | .trigger now => n.drainRounds now
  | .tick now => if n.overdue now then n.drainRounds now else []
  | .process b => [(n, b)]
  | .publish _ => []

theorem push_frame (n : Node α) (channel : ℕ) (b : Batch α) (now : Time α) :
    ∃ m, (n.call (.push channel b now)).1 = { n with intake := m } ∧
      m.settings = n.intake.settings ∧ m.latest = n.intake.latest := by
  rw [call, push?]
  cases hm : n.intake.push? channel b now with
  | none => exact ⟨n.intake, rfl, rfl, rfl⟩
  | some m =>
    obtain ⟨s, -, rfl⟩ := Option.map_eq_some_iff.1 hm
    exact ⟨_, rfl, rfl, rfl⟩

/-- What a call does to a node: it changes the intake, works through batches, and may publish. -/
theorem call_induction {P : Node α → Prop} (hintake : ∀ n m, P n → P { n with intake := m })
    (hprocess : ∀ (n : Node α) (b : Batch α) n', n.process? b = some n' → P n → P n')
    (hpublish : ∀ n now, P n → P (n.publish now).1) {n : Node α} (h : P n) (c : Call α) :
    P (n.call c).1 := by
  have hdrain : ∀ now, P (n.drain now).1 := fun now =>
    processAll_induction (fun m b m' _ => hprocess m b m') (hintake n _ h)
  cases c with
  | push channel b now =>
    rw [call, push?]
    cases n.intake.push? channel b now with
    | none => exact h
    | some m => exact hintake n m h
  | trigger now =>
    rw [call, trigger_eq]
    split
    · exact hdrain now
    · split
      · exact hdrain now
      · split
        · exact hpublish _ now (hdrain now)
        · exact hdrain now
  | tick now =>
    rw [call, tick_eq]
    split
    · exact hpublish _ now (hdrain now)
    · exact h
  | process b =>
    rw [call]
    cases hb : n.process? b with
    | none => exact h
    | some n' => exact hprocess n b n' hb h
  | publish now => exact hpublish n now h

theorem call_settings (n : Node α) (c : Call α) : (n.call c).1.settings = n.settings :=
  call_induction (P := fun m => m.settings = n.settings) (fun _ _ h => h)
    (fun _ _ _ hb h => (process?_frame hb).1.trans h) (fun _ _ h => h) rfl c

/-- What every call keeps holds after all of them. -/
theorem after_induction {P : Node α → Prop} {n : Node α} {calls : List (Call α)}
    (hcall : ∀ (m : Node α), ∀ c ∈ calls, P m → P (m.call c).1) (h : P n) : P (n.after calls) := by
  induction calls using List.reverseRecOn with
  | nil => exact h
  | append_singleton calls c ih =>
    rw [after_append, after_singleton]
    exact hcall _ c (by simp) (ih fun m d hd => hcall m d (List.mem_append_left _ hd))

/-! ### A small scene -/

/-- Settings under which every track is believed from the start, and detections are told apart by
their distance alone. -/
def trusting : Settings α :=
  { Settings.usual with
    roster := { RosterSettings.usual with confirmAfter := 1 }
    association :=
      { AssociationSettings.usual with minOverlap := List.replicate 8 (List.replicate 8 0) } }

/-- Frames that are all the same. -/
def still : FrameLookup α := fun _ _ _ => some .identity

/-- A car in the world, one second after the start. -/
def oneCar : Batch α where
  stamp := ⟨1⟩
  frame := "map"
  channel := 0
  objects := [{
    existence := 1
    classes := [⟨.car, 1⟩]
    kinematics := { Kinematics.ofPose ⟨3.0, 4.0, 0, 0⟩ with poseCov := 1, hasPoseCov := true }
    shape := .box ⟨4.0, 2.0, 1.0⟩ }]

/-- Posts along the way. They have no extent, so that nothing has to be known of angles. -/
def posts (stamp : α) (xs : List α) : Batch α where
  stamp := ⟨stamp⟩
  frame := "map"
  channel := 0
  objects := xs.map fun x => {
    existence := 1
    classes := [⟨.unknown, 1⟩]
    kinematics := { Kinematics.ofPose ⟨x, 0, 0, 0⟩ with poseCov := 1, hasPoseCov := true }
    shape := .polygon [⟨0, 0⟩] 1 }

/-- Two posts. -/
def twoPosts : Batch α := posts 1 [0, 3.0]

/-- A little later, only the second one of them is seen again, not quite where it was, and a new one
far away. -/
def nextPosts : Batch α := posts 1.2 [3.5, 20.0]

end Node

end TrackFusion
