import TrackFusion.Proofs.Input.Window

/-!
# Slips for batches

Two batches may be alike, so each one gets a slip that says which call it came with. The slips are
not part of an intake: they are kept beside its queues.

* `Slip`, `Slip.IsPush`: a batch with the number of the call that it came with.
* `Booked`: queues and releases of a run, as slips.
* `Booked.start`, `Booked.push`, `Booked.get`: the start of a run, and what one call does to it.
-/

namespace TrackFusion

/-- A batch with the number of the call that it came with. -/
structure Slip (α : Type) where
  serial : ℕ
  batch : Batch α

namespace Slip

section identity

variable {α : Type}

/-- The slip of a batch that comes in on a channel. -/
def ofPush (serial channel : ℕ) (b : Batch α) : Slip α := ⟨serial, { b with channel := channel }⟩

/-- The batch came with the call of that number, on its channel. -/
def IsPush (calls : List (Intake.Call α)) (x : Slip α) : Prop :=
  ∃ b now, calls[x.serial]? = some (.push x.batch.channel b now) ∧
    x.batch = { b with channel := x.batch.channel }

/-- The order in which slips are taken from the queues: by channel, and then by arrival. -/
def Ahead (x y : Slip α) : Prop :=
  x.batch.channel < y.batch.channel ∨ x.batch.channel = y.batch.channel ∧ x.serial < y.serial

variable {calls : List (Intake.Call α)} {x y : Slip α}

theorem IsPush.serial_lt (h : x.IsPush calls) : x.serial < calls.length := by
  obtain ⟨b, now, h, -⟩ := h
  exact (List.getElem?_eq_some_iff.1 h).1

theorem IsPush.append (h : x.IsPush calls) (calls' : List (Intake.Call α)) :
    x.IsPush (calls ++ calls') := by
  obtain ⟨b, now, hcall, hb⟩ := h
  refine ⟨b, now, ?_, hb⟩
  rw [List.getElem?_append_left (List.getElem?_eq_some_iff.1 hcall).1, hcall]

/-- A slip is known by its serial number. -/
theorem IsPush.ext (hx : x.IsPush calls) (hy : y.IsPush calls) (h : x.serial = y.serial) :
    x = y := by
  obtain ⟨b, now, hcall, hb⟩ := hx
  obtain ⟨b', now', hcall', hb'⟩ := hy
  rw [h, hcall'] at hcall
  injection hcall with hcall
  injection hcall with hchannel hbatch
  obtain ⟨serial, batch⟩ := x
  obtain ⟨serial', batch'⟩ := y
  simp only at *
  rw [h, hb, hb', hchannel, hbatch]

/-- Two slips of which one is ahead have different numbers. -/
theorem Ahead.serial_ne (h : x.Ahead y) (hx : x.IsPush calls) (hy : y.IsPush calls) :
    x.serial ≠ y.serial := by
  intro hs
  obtain rfl := hx.ext hy hs
  rcases h with h | ⟨-, h⟩ <;> exact lt_irrefl _ h

end identity

/-- The order of a release: by stamp, and of equal stamps by channel and then by arrival. The order
of stamps is the total one, in which the zeros of doubles are not equal. -/
def Before {α : Type} [Scalar α] (x y : Slip α) : Prop :=
  Scalar.order x.batch.stamp.seconds y.batch.stamp.seconds = .lt ∨
    Scalar.order x.batch.stamp.seconds y.batch.stamp.seconds = .eq ∧ x.Ahead y

end Slip

open Intake (Call)

variable {α : Type}

/-- The queues and the releases of a run, as slips. -/
structure Booked (calls : List (Call α)) (m : Intake α) (queues : List (List (Slip α)))
    (out : List (List (Slip α))) : Prop where
  same : m.streams.map Stream.queue = queues.map (List.map Slip.batch)
  index : ∀ (i : ℕ) (s : Stream α), m.streams[i]? = some s → s.index = i
  queued : ∀ (i : ℕ) (q : List (Slip α)), queues[i]? = some q →
    ∀ x ∈ q, x.IsPush calls ∧ x.batch.channel = i
  arrival : ∀ q ∈ queues, q.Pairwise fun x y => x.serial < y.serial
  length : out.length = calls.length
  pushed : ∀ (k : ℕ) (l : List (Slip α)), out[k]? = some l → ∀ x ∈ l, x.IsPush (calls.take k)
  once : (out.flatten.map Slip.serial).Nodup
  /-- What has been released waits no more. -/
  gone : ∀ q ∈ queues, ∀ x ∈ q, ∀ y ∈ out.flatten, y.serial ≠ x.serial

namespace Booked

variable {calls : List (Call α)} {m : Intake α} {queues out : List (List (Slip α))}

theorem isPush_of_mem (h : Booked calls m queues out) {x : Slip α} (hx : x ∈ out.flatten) :
    x.IsPush calls := by
  obtain ⟨l, hl, hxl⟩ := List.mem_flatten.1 hx
  obtain ⟨k, hk⟩ := List.mem_iff_getElem?.1 hl
  have hpush := (h.pushed k l hk x hxl).append (calls.drop k)
  rwa [List.take_append_drop] at hpush

theorem isPush_of_queue (h : Booked calls m queues out) {q : List (Slip α)} (hq : q ∈ queues)
    {x : Slip α} (hx : x ∈ q) : x.IsPush calls := by
  obtain ⟨i, hi⟩ := List.mem_iff_getElem?.1 hq
  exact (h.queued i q hi x hx).1

/-- A release after the others. -/
theorem pushed_append (h : Booked calls m queues out) (c : Call α) (new : List (Slip α))
    (hnew : ∀ x ∈ new, x.IsPush calls) :
    ∀ (k : ℕ) (l : List (Slip α)), (out ++ [new])[k]? = some l →
      ∀ x ∈ l, x.IsPush ((calls ++ [c]).take k) := by
  intro k l hl x hx
  have hlength := h.length
  rcases lt_or_ge k out.length with hk | hk
  · rw [List.getElem?_append_left hk] at hl
    rw [List.take_append_of_le_length (by omega)]
    exact h.pushed k l hl x hx
  · rw [List.getElem?_append_right hk] at hl
    obtain ⟨hk', rfl⟩ := List.getElem?_eq_some_iff.1 hl
    obtain rfl : k = calls.length := by
      rw [List.length_singleton] at hk'
      omega
    rw [List.take_left]
    exact hnew x (by simpa using hx)

/-- Every stream has its queue. -/
theorem exists_queue (h : Booked calls m queues out) {i : ℕ} {s : Stream α}
    (hs : m.streams[i]? = some s) : ∃ q, queues[i]? = some q ∧ q.map Slip.batch = s.queue := by
  have := congrArg (fun l => l[i]?) h.same
  simpa [hs] using this.symm

/-- The queues after a batch has arrived. Its slip goes to the end of its queue; evictions are at
the other end. -/
def arrived (m : Intake α) (serial channel : ℕ) (b : Batch α) (queues : List (List (Slip α))) :
    List (List (Slip α)) :=
  match m.streams[channel]? with
  | none => queues
  | some s => queues.modify channel fun q =>
    (q ++ [Slip.ofPush serial channel b]).drop (q.length + 1 - s.capacity)

theorem arrived_eq_set {i : ℕ} {s : Stream α} {q : List (Slip α)} (hs : m.streams[i]? = some s)
    (hq : queues[i]? = some q) (serial : ℕ) (b : Batch α) :
    arrived m serial i b queues =
      queues.set i ((q ++ [Slip.ofPush serial i b]).drop (q.length + 1 - s.capacity)) := by
  rw [arrived, hs]
  simp only [List.modify_eq_set, hq, Option.getD_some]

variable [Scalar α]

/-- At the start nothing waits. -/
theorem start {channels : List (ChannelSettings α)} {window : WindowSettings α} {start : Time α}
    (hm : Intake.ofSettings channels window start = .ok m) :
    Booked [] m (m.streams.map fun _ => []) [] := by
  have hstreams := Intake.ofSettings_streams hm
  refine ⟨?_, fun i s hs => ?_, fun i q hq x hx => ?_, fun q hq => ?_, rfl, by simp, by simp,
    by simp⟩
  · rw [List.map_map]
    refine List.map_congr_left fun s hs => ?_
    rw [hstreams] at hs
    obtain ⟨i, hi, rfl⟩ := List.mem_mapIdx.1 hs
    rfl
  · rw [hstreams, List.getElem?_mapIdx] at hs
    obtain ⟨c, -, rfl⟩ := Option.map_eq_some_iff.1 hs
    rfl
  · obtain ⟨s, -, rfl⟩ := List.mem_map.1 (List.mem_of_getElem? hq)
    cases hx
  · obtain ⟨s, -, rfl⟩ := List.mem_map.1 hq
    exact List.Pairwise.nil

/-! ### A batch arrives -/

theorem push (h : Booked calls m queues out) (channel : ℕ) (b : Batch α) (now : Time α) :
    Booked (calls ++ [.push channel b now]) (m.call (.push channel b now)).2
      (arrived m calls.length channel b queues) (out ++ [[]]) := by
  have hpushed := h.pushed_append (.push channel b now) [] (by simp)
  have hflat : (out ++ [[]]).flatten = out.flatten := by simp
  rw [Intake.call, Intake.push?]
  cases hs : m.streams[channel]? with
  | none =>
    -- no such channel: nothing happens, but the call counts
    rw [arrived, hs]
    refine ⟨h.same, h.index, fun i q hq x hx => ?_, h.arrival, by simp [h.length], hpushed,
      by rw [hflat]; exact h.once, by rw [hflat]; exact h.gone⟩
    exact ⟨(h.queued i q hq x hx).1.append _, (h.queued i q hq x hx).2⟩
  | some s =>
    have hindex := h.index channel s hs
    obtain ⟨q, hq, hsame⟩ := h.exists_queue hs
    have hmem : q ∈ queues := List.mem_of_getElem? hq
    have hlength : q.length = s.queue.length := by rw [← hsame, List.length_map]
    rw [arrived_eq_set hs hq]
    set x : Slip α := .ofPush calls.length channel b with hx
    set q' := (q ++ [x]).drop (q.length + 1 - s.capacity) with hq'
    have hxpush : x.IsPush (calls ++ [.push channel b now]) :=
      ⟨b, now, by simp [hx, Slip.ofPush], rfl⟩
    have hsub {y : Slip α} (hy : y ∈ q') : y ∈ q ∨ y = x := by
      simpa using List.mem_of_mem_drop hy
    refine ⟨?_, ?_, ?_, ?_, by simp [h.length], hpushed, ?_, ?_⟩
    · simp only [Option.map_some, Option.getD_some, List.map_set, h.same]
      rw [s.push_queue, hindex, hq', List.map_drop, List.map_append, hsame, hlength]
      rfl
    · intro i s' hs'
      simp only [Option.map_some, Option.getD_some] at hs'
      by_cases hi : channel = i
      · subst hi
        rw [List.getElem?_set_self (List.getElem?_eq_some_iff.1 hs).1] at hs'
        cases hs'
        exact hindex
      · rw [List.getElem?_set_ne hi] at hs'
        exact h.index i s' hs'
    · intro i q₁ hq₁ y hy
      by_cases hi : channel = i
      · subst hi
        rw [List.getElem?_set_self (List.getElem?_eq_some_iff.1 hq).1] at hq₁
        cases hq₁
        rcases hsub hy with hy | rfl
        · exact ⟨(h.queued channel q hq y hy).1.append _, (h.queued channel q hq y hy).2⟩
        · exact ⟨hxpush, rfl⟩
      · rw [List.getElem?_set_ne hi] at hq₁
        exact ⟨(h.queued i q₁ hq₁ y hy).1.append _, (h.queued i q₁ hq₁ y hy).2⟩
    · intro q₁ hq₁
      rcases List.mem_or_eq_of_mem_set hq₁ with hq₁ | rfl
      · exact h.arrival q₁ hq₁
      · refine List.Pairwise.sublist (List.drop_sublist _ _) ?_
        refine List.pairwise_append.2 ⟨h.arrival q hmem, List.pairwise_singleton _ _, ?_⟩
        intro y hy z hz
        rw [List.mem_singleton.1 hz]
        exact (h.isPush_of_queue hmem hy).serial_lt
    · rw [hflat]
      exact h.once
    · rw [hflat]
      intro q₁ hq₁ y hy z hz
      rcases List.mem_or_eq_of_mem_set hq₁ with hq₁ | rfl
      · exact h.gone q₁ hq₁ y hy z hz
      · rcases hsub hy with hy | rfl
        · exact h.gone q hmem y hy z hz
        · exact (h.isPush_of_mem hz).serial_lt.ne

/-! ### A release -/

/-- The slips that leave the queues at a release. -/
def due (m : Intake α) (now : Time α) (queues : List (List (Slip α))) : List (Slip α) :=
  queues.flatMap fun q => q.filter fun x =>
    Stream.isDue (m.window now).1 (m.window now).2 x.batch

/-- They leave in the order of their stamps. -/
def sorted (m : Intake α) (now : Time α) (queues : List (List (Slip α))) : List (Slip α) :=
  (due m now queues).mergeSort fun x y => Intake.precedes x.batch y.batch

/-- The slips that stay. -/
def rest (m : Intake α) (now : Time α) (queues : List (List (Slip α))) : List (List (Slip α)) :=
  queues.map fun q => q.filter fun x => Stream.stays (m.window now).1 (m.window now).2 x.batch

theorem mem_due {now : Time α} {x : Slip α} :
    x ∈ due m now queues ↔
      ∃ q ∈ queues, x ∈ q ∧ Stream.isDue (m.window now).1 (m.window now).2 x.batch = true := by
  simp [due]

theorem mem_sorted {now : Time α} {x : Slip α} : x ∈ sorted m now queues ↔ x ∈ due m now queues :=
  List.mem_mergeSort

theorem mem_rest {now : Time α} {q : List (Slip α)} (hq : q ∈ rest m now queues) {x : Slip α}
    (hx : x ∈ q) :
    ∃ q' ∈ queues, x ∈ q' ∧ Stream.isDue (m.window now).1 (m.window now).2 x.batch = false := by
  obtain ⟨q', hq', rfl⟩ := List.mem_map.1 hq
  obtain ⟨hx, hstays⟩ := List.mem_filter.1 hx
  refine ⟨q', hq', hx, ?_⟩
  simpa using (Bool.and_eq_true_iff.1 hstays).2

theorem sorted_batches (h : Booked calls m queues out) (now : Time α) :
    (sorted m now queues).map Slip.batch = (m.release now).1.batches := by
  have hqueue : (m.streams.flatMap fun s => s.queue.filter
      (Stream.isDue (m.window now).1 (m.window now).2)) =
      (m.streams.map Stream.queue).flatMap
        (List.filter (Stream.isDue (m.window now).1 (m.window now).2)) := by
    rw [List.flatMap_map]
  rw [m.release_batches, hqueue, h.same, sorted, due]
  rw [List.map_mergeSort (s := Intake.precedes) fun _ _ _ _ => rfl, List.map_flatMap,
    List.flatMap_map]
  simp only [List.filter_map]
  rfl

theorem mem_batches (h : Booked calls m queues out) {now : Time α} {x : Slip α}
    (hx : x ∈ sorted m now queues) : x.batch ∈ (m.release now).1.batches := by
  rw [← h.sorted_batches]
  exact List.mem_map_of_mem hx

/-- The queues give their slips in the order of the channels. -/
theorem due_ahead (h : Booked calls m queues out) (now : Time α) :
    (due m now queues).Pairwise Slip.Ahead := by
  rw [due, List.flatMap_def]
  refine List.pairwise_flatten.2 ⟨fun l hl => ?_, ?_⟩
  · obtain ⟨q, hq, rfl⟩ := List.mem_map.1 hl
    obtain ⟨i, hi⟩ := List.mem_iff_getElem?.1 hq
    refine ((h.arrival q hq).filter _).imp_of_mem fun hx hy hxy => .inr ⟨?_, hxy⟩
    rw [(h.queued i q hi _ (List.mem_of_mem_filter hx)).2,
      (h.queued i q hi _ (List.mem_of_mem_filter hy)).2]
  · rw [List.pairwise_map, List.pairwise_iff_getElem]
    intro i j hi hj hij x hx y hy
    left
    rw [(h.queued i _ (List.getElem?_eq_getElem hi) _ (List.mem_of_mem_filter hx)).2,
      (h.queued j _ (List.getElem?_eq_getElem hj) _ (List.mem_of_mem_filter hy)).2]
    exact hij

theorem get (h : Booked calls m queues out) (now : Time α) :
    Booked (calls ++ [.get now]) (m.call (.get now)).2 (rest m now queues)
      (out ++ [sorted m now queues]) := by
  have hpush : ∀ x ∈ sorted m now queues, x.IsPush calls := fun x hx => by
    obtain ⟨q, hq, hxq, -⟩ := mem_due.1 (mem_sorted.1 hx)
    exact h.isPush_of_queue hq hxq
  have hflat : (out ++ [sorted m now queues]).flatten = out.flatten ++ sorted m now queues := by
    simp
  refine ⟨?_, ?_, ?_, ?_, by simp [h.length], h.pushed_append _ _ hpush, ?_, ?_⟩
  · have hqueues : (m.streams.map fun s => s.queue.filter
        (Stream.stays (m.window now).1 (m.window now).2)) =
        (m.streams.map Stream.queue).map
          (List.filter (Stream.stays (m.window now).1 (m.window now).2)) := by
      rw [List.map_map]
      rfl
    rw [Intake.call, m.release_queues, hqueues, h.same, rest, List.map_map, List.map_map]
    simp only [Function.comp_def, List.filter_map]
  · intro i s hs
    have hindex := congrArg (fun l => l[i]?) (m.release_indices now)
    rw [Intake.call] at hs
    simp only [List.getElem?_map, hs, Option.map_some] at hindex
    obtain ⟨s', hs', hss'⟩ := Option.map_eq_some_iff.1 hindex.symm
    rw [← hss']
    exact h.index i s' hs'
  · intro i q hq x hx
    rw [rest, List.getElem?_map] at hq
    obtain ⟨q', hq', rfl⟩ := Option.map_eq_some_iff.1 hq
    obtain ⟨hcame, hchannel⟩ := h.queued i q' hq' x (List.mem_of_mem_filter hx)
    exact ⟨hcame.append _, hchannel⟩
  · intro q hq
    obtain ⟨q', hq', rfl⟩ := List.mem_map.1 hq
    exact (h.arrival q' hq').filter _
  · -- a slip leaves one queue, once, and has not left before
    rw [hflat, List.map_append]
    refine List.nodup_append.2 ⟨h.once, ?_, ?_⟩
    · have hperm : (sorted m now queues).Perm (due m now queues) := List.mergeSort_perm _ _
      rw [(hperm.map Slip.serial).nodup_iff, List.Nodup, List.pairwise_map]
      refine (h.due_ahead now).imp_of_mem fun hx hy hxy => ?_
      exact hxy.serial_ne (hpush _ (mem_sorted.2 hx)) (hpush _ (mem_sorted.2 hy))
    · intro k hk k' hk'
      obtain ⟨y, hy, rfl⟩ := List.mem_map.1 hk
      obtain ⟨x, hx, rfl⟩ := List.mem_map.1 hk'
      obtain ⟨q, hq, hxq, -⟩ := mem_due.1 (mem_sorted.1 hx)
      exact h.gone q hq x hxq y hy
  · intro q hq x hx y hy hserial
    obtain ⟨q', hq', hxq', hstays⟩ := mem_rest hq hx
    rw [hflat] at hy
    rcases List.mem_append.1 hy with hy | hy
    · exact h.gone q' hq' x hxq' y hy hserial
    · -- the same slip would both leave and stay
      obtain rfl := (hpush y hy).ext (h.isPush_of_queue hq' hxq') hserial
      obtain ⟨-, -, -, hdue⟩ := mem_due.1 (mem_sorted.1 hy)
      rw [hstays] at hdue
      cases hdue

end Booked

end TrackFusion
