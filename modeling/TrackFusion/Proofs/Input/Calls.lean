import Mathlib
import TrackFusion.Input.Intake

/-!
# Calls of an intake

An intake is driven by two calls: a batch arrives, or what is due is released.

* `Intake.Call`, `Intake.call`: one call.
* `Intake.after`, `Intake.released`: the state after some calls, and what each of them releases.
* `Intake.release_batches`, `release_queues`: what leaves the queues and what stays.
-/

namespace TrackFusion

variable {α : Type} [Scalar α]

/-! ### Queues -/

/-- A report changes nothing but the memory of what was reported. -/
theorem Stream.reportDelay_eq (s : Stream α) (now : Time α) :
    (s.reportDelay now).2 = { s with reportedDelay := (s.reportDelay now).2.reportedDelay } := by
  unfold reportDelay
  dsimp only
  split <;> rfl

theorem Stream.reportDelay_queue (s : Stream α) (now : Time α) :
    (s.reportDelay now).2.queue = s.queue := by
  rw [reportDelay_eq]

theorem Stream.reportDelay_index (s : Stream α) (now : Time α) :
    (s.reportDelay now).2.index = s.index := by
  rw [reportDelay_eq]

theorem Stream.push_queue (s : Stream α) (b : Batch α) (now : Time α) :
    (s.push b now).queue =
      (s.queue ++ [{ b with channel := s.index }]).drop (s.queue.length + 1 - s.capacity) := by
  simp [push]

/-- What is neither too old nor due stays. -/
def Stream.stays (oldest latest : Time α) (b : Batch α) : Bool :=
  !isStale oldest b && !isDue oldest latest b

namespace Intake

/-- What the caller of an intake may do. -/
inductive Call (α : Type) where
  | push (channel : ℕ) (b : Batch α) (now : Time α)
  | get (now : Time α)

/-- What a call releases, and the intake after it. A batch for no channel changes nothing. -/
def call (m : Intake α) : Call α → List (Batch α) × Intake α
  | .push channel b now => ([], (m.push? channel b now).getD m)
  | .get now => ((m.release now).1.batches, (m.release now).2)

/-- The intake after some calls. -/
def after (m : Intake α) (calls : List (Call α)) : Intake α :=
  calls.foldl (fun m c => (m.call c).2) m

/-- What each of some calls releases. -/
def released (m : Intake α) : List (Call α) → List (List (Batch α))
  | [] => []
  | c :: calls => (m.call c).1 :: (m.call c).2.released calls

@[simp] theorem after_nil (m : Intake α) : m.after [] = m := rfl

@[simp] theorem after_append (m : Intake α) (calls calls' : List (Call α)) :
    m.after (calls ++ calls') = (m.after calls).after calls' :=
  List.foldl_append

theorem after_singleton (m : Intake α) (c : Call α) : m.after [c] = (m.call c).2 := rfl

variable (m : Intake α)

theorem release_batches (now : Time α) :
    (m.release now).1.batches =
      (m.streams.flatMap fun s => s.queue.filter
        (Stream.isDue (m.window now).1 (m.window now).2)).mergeSort precedes := by
  simp [release, List.flatMap_map, Stream.release, Stream.reportDelay_queue]

theorem release_queues (now : Time α) :
    (m.release now).2.streams.map Stream.queue =
      m.streams.map fun s => s.queue.filter (Stream.stays (m.window now).1 (m.window now).2) := by
  simp only [release, List.map_map, Function.comp_def, Stream.release, Stream.reportDelay_queue]
  rfl

/-- The streams after a release. -/
theorem release_streams (now : Time α) :
    (m.release now).2.streams =
      m.streams.map fun s =>
        ((s.reportDelay now).2.release (m.window now).1 (m.window now).2).2 := by
  simp [release]

theorem release_indices (now : Time α) :
    (m.release now).2.streams.map Stream.index = m.streams.map Stream.index := by
  simp [release, Stream.release, Stream.reportDelay_index, Function.comp_def]

theorem mem_release (now : Time α) {b : Batch α} :
    b ∈ (m.release now).1.batches ↔
      ∃ s ∈ m.streams, b ∈ s.queue ∧ Stream.isDue (m.window now).1 (m.window now).2 b = true := by
  simp [release_batches]

theorem release_latest (now : Time α) :
    (m.release now).2.latest =
      ((m.release now).1.batches.getLast?.map Batch.stamp).getD m.latest :=
  rfl

/-- After a release of anything, its last stamp is the newest. -/
theorem latest_of_release (now : Time α) {l : List (Batch α)} {c : Batch α}
    (h : (m.release now).1.batches = l ++ [c]) : (m.release now).2.latest = c.stamp := by
  rw [release_latest, h, List.getLast?_concat]
  rfl

theorem ofSettings_settings {channels : List (ChannelSettings α)} {window : WindowSettings α}
    {start : Time α} {m : Intake α} (hm : ofSettings channels window start = .ok m) :
    m.settings = window := by
  cases channels with
  | nil => cases hm
  | cons c channels =>
    cases hm
    rfl

theorem ofSettings_streams {channels : List (ChannelSettings α)} {window : WindowSettings α}
    {start : Time α} {m : Intake α} (hm : ofSettings channels window start = .ok m) :
    m.streams = channels.mapIdx Stream.ofSettings := by
  cases channels with
  | nil => cases hm
  | cons c channels =>
    cases hm
    rfl

theorem ofSettings_channels {channels : List (ChannelSettings α)} {window : WindowSettings α}
    {start : Time α} {m : Intake α} (hm : ofSettings channels window start = .ok m) :
    m.streams.map Stream.settings = channels := by
  rw [ofSettings_streams hm]
  refine List.ext_getElem (by simp) fun i hi hi' => ?_
  rw [List.getElem_map, List.getElem_mapIdx]
  rfl

/-! ### One channel -/

theorem streams_push (k channel : ℕ) (b : Batch α) (now : Time α) :
    (m.call (.push channel b now)).2.streams[k]? =
      if channel = k then m.streams[k]?.map (·.push b now) else m.streams[k]? := by
  rw [call, push?]
  cases hs : m.streams[channel]? with
  | none =>
    split
    · rename_i heq
      rw [← heq, hs]
      simpa using hs
    · rfl
  | some s =>
    have hlt := (List.getElem?_eq_some_iff.1 hs).1
    show (m.streams.set channel (s.push b now))[k]? = _
    split
    · rename_i heq
      rw [← heq, List.getElem?_set_self hlt, hs]
      rfl
    · rename_i hne
      exact List.getElem?_set_ne hne

theorem streams_get (k : ℕ) (now : Time α) :
    (m.call (.get now)).2.streams[k]? = m.streams[k]?.map fun s =>
      ((s.reportDelay now).2.release (m.window now).1 (m.window now).2).2 := by
  rw [call, release_streams, List.getElem?_map]

/-- No call changes the settings of a channel. -/
theorem call_channels (c : Call α) :
    (m.call c).2.streams.map Stream.settings = m.streams.map Stream.settings := by
  refine List.ext_getElem? fun k => ?_
  rw [List.getElem?_map, List.getElem?_map]
  cases c with
  | push channel b now =>
    rw [streams_push]
    split
    · rw [Option.map_map]
      rfl
    · rfl
  | get now =>
    rw [streams_get, Option.map_map]
    refine Option.map_congr fun s _ => ?_
    show (s.reportDelay now).2.settings = s.settings
    rw [s.reportDelay_eq]

/-- No call changes the settings. -/
theorem call_settings (c : Call α) : (m.call c).2.settings = m.settings := by
  cases c with
  | push channel b now =>
    rw [call, push?]
    cases m.streams[channel]? <;> rfl
  | get now => rfl

theorem push_latest (channel : ℕ) (b : Batch α) (now : Time α) :
    (m.call (.push channel b now)).2.latest = m.latest := by
  rw [call, push?]
  cases m.streams[channel]? <;> rfl

theorem after_settings (calls : List (Call α)) : (m.after calls).settings = m.settings := by
  induction calls using List.reverseRecOn with
  | nil => rfl
  | append_singleton calls c ih => rw [after_append, after_singleton, call_settings, ih]

theorem after_channels (calls : List (Call α)) :
    (m.after calls).streams.map Stream.settings = m.streams.map Stream.settings := by
  induction calls using List.reverseRecOn with
  | nil => rfl
  | append_singleton calls c ih => rw [after_append, after_singleton, call_channels, ih]

end Intake

end TrackFusion
