import TrackFusion.Proofs.Displacement.Basic
import TrackFusion.Input.Intake

/-!
# Intakes of displaced batches

An intake only knows how old a batch is and which one is older, so it treats displaced batches
alike.

* `Stream.push_displace`, `release_displace`, `reportDelay_displace`: one channel.
* `Intake.ofSettings_displace`, `push?_displace`, `release_displace`: all channels.
-/

namespace TrackFusion

variable {α : Type} [ExactScalar α] (δ : Displacement α) (world : String)

def Arrival.displace (a : Arrival α) : Arrival α :=
  ⟨a.measured.displace δ, a.received.displace δ⟩

def Stream.displace (s : Stream α) : Stream α :=
  { s with
    queue := s.queue.map (Batch.transport δ world)
    latest? := s.latest?.map (Arrival.displace δ) }

namespace Stream

variable (s : Stream α) (b : Batch α) (now : Time α)

theorem push_displace :
    (s.displace δ world).push (b.transport δ world) (now.displace δ) =
      (s.push b now).displace δ world := by
  have hbatch : ({ b.transport δ world with channel := s.index } : Batch α) =
      Batch.transport δ world { b with channel := s.index } := by
    rw [Batch.transport, Batch.transport]
    split <;> rfl
  have hqueue : s.queue.map (Batch.transport δ world) ++
      [{ b.transport δ world with channel := s.index }] =
        (s.queue ++ [{ b with channel := s.index }]).map (Batch.transport δ world) := by
    rw [List.map_append, List.map_singleton, ← hbatch]
  -- latencies and intervals are ages, which stay as they are
  have hlatency : (now.displace δ - (b.transport δ world).stamp : α) = now - b.stamp := by
    rw [Batch.transport_stamp, Time.displace_sub_displace]
  have hlatest : (⟨(b.transport δ world).stamp, now.displace δ⟩ : Arrival α) =
      Arrival.displace δ ⟨b.stamp, now⟩ := by
    rw [Batch.transport_stamp]
    rfl
  obtain ⟨index, settings, queue, timing, latest?, reported⟩ := s
  simp only [push, displace, hqueue, hlatency, hlatest, List.length_map, ← List.map_drop]
  cases latest? with
  | none => rfl
  | some last =>
    simp only [Option.map_some, Arrival.displace, Time.displace_sub_displace]
    rfl

theorem release_displace (oldest latest : Time α) :
    (s.displace δ world).release (oldest.displace δ) (latest.displace δ) =
      ((s.release oldest latest).1.map (Batch.transport δ world),
        (s.release oldest latest).2.displace δ world) := by
  have hstale : ∀ b : Batch α, isStale (oldest.displace δ) (b.transport δ world) =
      isStale oldest b := by
    intro b
    simp only [isStale, Batch.transport_stamp, Time.displace_lt_displace]
  have hdue : ∀ b : Batch α, isDue (oldest.displace δ) (latest.displace δ)
      (b.transport δ world) = isDue oldest latest b := by
    intro b
    simp only [isDue, hstale, Batch.transport_stamp, Time.displace_le_displace]
  simp only [release, displace, List.filter_map, Function.comp_def, hstale, hdue]

theorem health_displace : (s.displace δ world).health (now.displace δ) = s.health now := by
  obtain ⟨index, settings, queue, timing, latest?, reported⟩ := s
  simp only [health, displace, List.length_map, Option.map_map, Function.comp_def,
    Arrival.displace, Time.displace_sub_displace]
  rfl

theorem reportDelay_displace :
    (s.displace δ world).reportDelay (now.displace δ) =
      ((s.reportDelay now).1, (s.reportDelay now).2.displace δ world) := by
  simp only [reportDelay, health_displace]
  cases (s.health now).arrivalAge? <;> rfl

end Stream

/-! ### All channels -/

def Intake.displace (m : Intake α) : Intake α :=
  { m with
    streams := m.streams.map (Stream.displace δ world)
    latest := m.latest.displace δ }

namespace Intake

variable (m : Intake α) (b : Batch α) (now : Time α)

theorem ofSettings_displace (channels : List (ChannelSettings α)) (w : WindowSettings α) :
    ofSettings channels w (now.displace δ) =
      (ofSettings channels w now).map (displace δ world) := by
  cases channels with
  | nil => rfl
  | cons c cs =>
    have hstreams : ((c :: cs).mapIdx Stream.ofSettings).map (Stream.displace δ world) =
        (c :: cs).mapIdx Stream.ofSettings := by
      refine List.ext_getElem (by simp) fun i h h' => ?_
      rw [List.getElem_map, List.getElem_mapIdx]
      rfl
    show Except.ok _ = Except.ok _
    rw [displace, hstreams]

theorem push?_displace (channel : ℕ) :
    (m.displace δ world).push? channel (b.transport δ world) (now.displace δ) =
      (m.push? channel b now).map (displace δ world) := by
  simp only [push?, displace, List.getElem?_map, Option.map_map, Function.comp_def,
    Stream.push_displace, List.map_set]

/-- **The same batches are released, in the same order.** -/
theorem release_displace :
    (m.displace δ world).release (now.displace δ) =
      (⟨(m.release now).1.batches.map (Batch.transport δ world), (m.release now).1.reports⟩,
        (m.release now).2.displace δ world) := by
  have hwindow : (m.displace δ world).window (now.displace δ) =
      ((m.window now).1.displace δ, (m.window now).2.displace δ) := by
    simp only [window, displace, Time.displace_sub, Time.later_displace]
  have hsort : ∀ bs : List (Batch α), (bs.map (Batch.transport δ world)).mergeSort precedes =
      (bs.mergeSort precedes).map (Batch.transport δ world) := by
    intro bs
    refine (List.map_mergeSort fun b _ c _ => ?_).symm
    rw [precedes, precedes, Batch.transport_stamp, Batch.transport_stamp, Time.order_displace]
  have hlatest : ∀ bs : List (Batch α),
      (((bs.map (Batch.transport δ world)).getLast?).map Batch.stamp).getD (m.latest.displace δ) =
        ((bs.getLast?.map Batch.stamp).getD m.latest).displace δ := by
    intro bs
    rw [List.getLast?_map, Option.map_map]
    cases bs.getLast? with
    | none => rfl
    | some b => exact b.transport_stamp δ world
  simp only [release, hwindow]
  simp only [displace, List.map_map, Function.comp_def, Stream.reportDelay_displace,
    Stream.release_displace, List.flatMap_map, List.filterMap_map, ← List.map_flatMap, hsort,
    hlatest]

end Intake

end TrackFusion
