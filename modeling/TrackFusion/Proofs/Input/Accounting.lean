import TrackFusion.Proofs.Input.Slips

/-!
# Where every batch is

A batch that has arrived waits, or has been released, evicted or discarded, and never two of these.
The books of a run say which call did it.

* `Slip.arrivals`: all batches that have arrived.
* `Booked.arrived_perm`, `release_perm`: one call moves slips from one place to another.
* `Balanced`: the books after some calls; `Balanced.enter` is one more call.
* `Intake.accounting_ok`: no batch is lost without a reason, whatever the clock does.
-/

namespace TrackFusion

open Intake (Call)
open scoped List

/-! ### Lists of lists -/

section lists

variable {ι : Type}

/-- What goes into one of some lists, and what comes out of it. -/
theorem flatten_set_perm {ls : List (List ι)} {i : ℕ} {l l' gone new : List ι}
    (hl : ls[i]? = some l) (h : l' ++ gone ~ l ++ new) :
    (ls.set i l').flatten ++ gone ~ ls.flatten ++ new := by
  have hcomm (a b c : List ι) : a ++ b ++ c ~ a ++ c ++ b := by
    rw [List.append_assoc, List.append_assoc]
    exact List.perm_append_comm.append_left a
  induction ls generalizing i with
  | nil => cases hl
  | cons k ls ih =>
    cases i with
    | zero =>
      obtain rfl : k = l := by simpa using hl
      rw [List.set_cons_zero, List.flatten_cons, List.flatten_cons]
      calc l' ++ ls.flatten ++ gone
        _ ~ l' ++ gone ++ ls.flatten := hcomm ..
        _ ~ k ++ new ++ ls.flatten := h.append_right _
        _ ~ k ++ ls.flatten ++ new := hcomm ..
    | succ i =>
      rw [List.set_cons_succ, List.flatten_cons, List.flatten_cons, List.append_assoc,
        List.append_assoc]
      exact (ih (by simpa using hl)).append_left k

end lists

variable {α : Type}

/-! ### Arrivals -/

namespace Slip

/-- The slip of a call, if it brings a batch on one of `n` channels. -/
def ofCall? (n serial : ℕ) : Call α → Option (Slip α)
  | .push channel b _ => if channel < n then some (.ofPush serial channel b) else none
  | .get _ => none

theorem ofCall?_serial {n serial : ℕ} {c : Call α} {x : Slip α} (h : ofCall? n serial c = some x) :
    x.serial = serial := by
  cases c with
  | push channel b now =>
    obtain ⟨-, h⟩ := Option.ite_none_right_eq_some.1 h
    cases h
    rfl
  | get now => cases h

/-- The slips of all batches that have arrived on one of `n` channels, in their order. -/
def arrivals (n : ℕ) (calls : List (Call α)) : List (Slip α) :=
  calls.zipIdx.filterMap fun (c, k) => ofCall? n k c

theorem arrivals_concat (n : ℕ) (calls : List (Call α)) (c : Call α) :
    arrivals n (calls ++ [c]) = arrivals n calls ++ (ofCall? n calls.length c).toList := by
  rw [arrivals, List.zipIdx_append, List.filterMap_append]
  cases h : ofCall? n calls.length c <;> simp [arrivals, h]

theorem serial_lt_of_mem_arrivals {n : ℕ} {calls : List (Call α)} {x : Slip α}
    (hx : x ∈ arrivals n calls) : x.serial < calls.length := by
  induction calls using List.reverseRecOn with
  | nil => cases hx
  | append_singleton calls c ih =>
    rw [List.length_append, List.length_singleton]
    rw [arrivals_concat, List.mem_append, Option.mem_toList] at hx
    rcases hx with hx | hx
    · exact Nat.lt_succ_of_lt (ih hx)
    · rw [ofCall?_serial hx]
      exact Nat.lt_succ_self _

/-- No two of them have the same number. -/
theorem arrivals_pairwise (n : ℕ) (calls : List (Call α)) :
    (arrivals n calls).Pairwise fun x y => x.serial < y.serial := by
  induction calls using List.reverseRecOn with
  | nil => exact List.Pairwise.nil
  | append_singleton calls c ih =>
    rw [arrivals_concat]
    refine List.pairwise_append.2 ⟨ih, ?_, fun x hx y hy => ?_⟩
    · cases ofCall? n calls.length c <;> simp
    · rw [ofCall?_serial (Option.mem_toList.1 hy)]
      exact serial_lt_of_mem_arrivals hx

end Slip

namespace Booked

/-! ### What leaves a queue -/

/-- The slips that a new arrival evicts: the oldest of its queue, if there is no room. -/
def evicted (m : Intake α) (channel : ℕ) (queues : List (List (Slip α))) : List (Slip α) :=
  match m.streams[channel]?, queues[channel]? with
  | some s, some q => q.take (q.length + 1 - s.capacity)
  | _, _ => []

variable {calls : List (Call α)} {m : Intake α} {queues out : List (List (Slip α))}

/-- An arrival is queued, and what is evicted for it has been queued. -/
theorem arrived_perm (h : Booked calls m queues out) (channel : ℕ) (b : Batch α) (now : Time α) :
    (arrived m calls.length channel b queues).flatten ++ evicted m channel queues ~
      queues.flatten ++
        (Slip.ofCall? m.streams.length calls.length (.push channel b now)).toList := by
  rw [Slip.ofCall?]
  cases hs : m.streams[channel]? with
  | none =>
    have hn : ¬ channel < m.streams.length := not_lt.2 (List.getElem?_eq_none_iff.1 hs)
    simp [arrived, evicted, hn]
  | some s =>
    obtain ⟨q, hq, -⟩ := h.exists_queue hs
    have hn : channel < m.streams.length := (List.getElem?_eq_some_iff.1 hs).1
    have hroom : q.length + 1 - s.capacity ≤ q.length := by
      have : 1 ≤ s.capacity := Nat.le_max_right _ _
      omega
    rw [arrived_eq_set hs hq, if_pos hn, Option.toList_some]
    refine flatten_set_perm hq ?_
    have hsplit := List.take_append_drop (q.length + 1 - s.capacity) q
    rw [evicted, hs, hq, List.drop_append_of_le_length hroom]
    calc q.drop (q.length + 1 - s.capacity) ++ [_] ++ q.take (q.length + 1 - s.capacity)
      _ ~ q.take (q.length + 1 - s.capacity) ++ (q.drop (q.length + 1 - s.capacity) ++ [_]) :=
        List.perm_append_comm
      _ = q ++ [_] := by rw [← List.append_assoc, hsplit]

variable [Scalar α]

/-- The slips that are discarded at a release. -/
def stale (m : Intake α) (now : Time α) (queues : List (List (Slip α))) : List (Slip α) :=
  queues.flatten.filter fun x => Stream.isStale (m.window now).1 x.batch

/-- What was queued stays, is released or is discarded. -/
theorem release_perm (now : Time α) :
    (rest m now queues).flatten ++ (sorted m now queues ++ stale m now queues) ~
      queues.flatten := by
  set l := queues.flatten with hl
  let old (x : Slip α) : Bool := Stream.isStale (m.window now).1 x.batch
  let isDue (x : Slip α) : Bool := Stream.isDue (m.window now).1 (m.window now).2 x.batch
  have hdue : due m now queues = (l.filter fun x => !old x).filter isDue := by
    rw [due, List.flatMap_def, ← List.filter_flatten, List.filter_filter]
    refine List.filter_congr fun x _ => ?_
    cases hx : old x <;> simp [isDue, Stream.isDue, old, hx]
  have hrest :
      (rest m now queues).flatten = (l.filter fun x => !old x).filter fun x => !isDue x := by
    rw [rest, ← List.filter_flatten, List.filter_filter]
    exact List.filter_congr fun x _ => Bool.and_comm _ _
  rw [hrest]
  calc _ ++ (sorted m now queues ++ stale m now queues)
    _ ~ (l.filter fun x => !old x).filter (fun x => !isDue x) ++
          ((l.filter fun x => !old x).filter isDue ++ l.filter old) := by
      refine List.Perm.append_left _ (List.Perm.append_right _ ?_)
      rw [← hdue]
      exact List.mergeSort_perm _ _
    _ ~ (l.filter fun x => !old x) ++ l.filter old := by
      rw [← List.append_assoc]
      exact (List.perm_append_comm.trans (List.filter_append_perm _ _)).append_right _
    _ ~ l := List.perm_append_comm.trans (List.filter_append_perm _ _)

end Booked

/-! ### The books -/

/-- What waits after a call, by channel, and what has left the queues with the call. -/
structure Books (α : Type) where
  waiting : List (List (Slip α))
  released : List (Slip α)
  evicted : List (Slip α)
  discarded : List (Slip α)

/-- No queue holds more than its channel has room for. -/
def Intake.HasRoom (m : Intake α) : Prop := ∀ s ∈ m.streams, s.queue.length ≤ s.capacity

/-- The books of a run: what has happened to each of the batches that have arrived so far. -/
structure Balanced (channels : List (ChannelSettings α)) (calls : List (Call α)) (m : Intake α)
    (queues out evicted discarded : List (List (Slip α))) : Prop
    extends Booked calls m queues out where
  settings : m.streams.map Stream.settings = channels
  room : m.HasRoom
  conserved : queues.flatten ++ (out.flatten ++ (evicted.flatten ++ discarded.flatten)) ~
    Slip.arrivals channels.length calls

namespace Balanced

variable {channels : List (ChannelSettings α)} {calls : List (Call α)} {m : Intake α}
  {queues out evicted discarded : List (List (Slip α))}

theorem length_streams (h : Balanced channels calls m queues out evicted discarded) :
    m.streams.length = channels.length := by
  rw [← h.settings, List.length_map]

/-- A queue is in order, and there is room for it. -/
theorem queue_ok (h : Balanced channels calls m queues out evicted discarded) {i : ℕ}
    {s : ChannelSettings α} (hs : channels[i]? = some s) :
    ∃ q, queues[i]? = some q ∧ q.Pairwise (fun x y => x.serial < y.serial) ∧
      q.length ≤ max s.queueSize 1 ∧ ∀ x ∈ q, x.batch.channel = i := by
  rw [← h.settings, List.getElem?_map] at hs
  obtain ⟨s', hs', rfl⟩ := Option.map_eq_some_iff.1 hs
  obtain ⟨q, hq, hsame⟩ := h.exists_queue hs'
  have hroom := h.room s' (List.mem_of_getElem? hs')
  rw [← hsame, List.length_map] at hroom
  exact ⟨q, hq, h.arrival q (List.mem_of_getElem? hq), hroom, fun x hx => (h.queued i q hq x hx).2⟩

/-- An eviction leaves a queue full of later arrivals. -/
theorem evicted_ok (h : Balanced channels calls m queues out evicted discarded) {channel : ℕ}
    {x : Slip α} (hx : x ∈ Booked.evicted m channel queues) (b : Batch α) :
    x.serial < calls.length ∧ x.batch.channel = channel ∧
      ∃ s q, channels[channel]? = some s ∧
        (Booked.arrived m calls.length channel b queues)[channel]? = some q ∧
        q.length = max s.queueSize 1 ∧ ∀ y ∈ q, x.serial < y.serial := by
  unfold Booked.evicted at hx
  cases hs : m.streams[channel]? with
  | none => simp [hs] at hx
  | some s =>
    obtain ⟨q, hq, hsame⟩ := h.exists_queue hs
    rw [hs, hq] at hx
    have hxq : x ∈ q := List.mem_of_mem_take hx
    obtain ⟨hpush, hchannel⟩ := h.queued channel q hq x hxq
    have hserial := hpush.serial_lt
    have hroom : q.length ≤ s.capacity := by
      have := h.room s (List.mem_of_getElem? hs)
      rwa [← hsame, List.length_map] at this
    have hfull : 0 < q.length + 1 - s.capacity := by
      by_contra hzero
      have hzero' : q.length + 1 - s.capacity = 0 := by omega
      simp [hzero'] at hx
    have hlt : channel < queues.length := (List.getElem?_eq_some_iff.1 hq).1
    refine ⟨hserial, hchannel, s.settings,
      (q ++ [Slip.ofPush calls.length channel b]).drop (q.length + 1 - s.capacity), ?_, ?_, ?_, ?_⟩
    · rw [← h.settings, List.getElem?_map, hs]
      rfl
    · rw [Booked.arrived_eq_set hs hq, List.getElem?_set_self hlt]
    · show _ = s.capacity
      rw [List.length_drop, List.length_append, List.length_singleton]
      omega
    · intro y hy
      have hsplit := List.take_append_drop (q.length + 1 - s.capacity) q
      have horder := h.arrival q (List.mem_of_getElem? hq)
      rw [← hsplit] at horder
      have hcap : 1 ≤ s.capacity := Nat.le_max_right _ _
      rw [List.drop_append_of_le_length (by omega), List.mem_append] at hy
      rcases hy with hy | hy
      · exact (List.pairwise_append.1 horder).2.2 x hx y hy
      · rw [List.mem_singleton.1 hy]
        exact hserial

/-- The newest arrival is at the end of its queue. -/
theorem newest_ok (h : Balanced channels calls m queues out evicted discarded) {channel : ℕ}
    (hn : channel < channels.length) (b : Batch α) :
    ∃ q, (Booked.arrived m calls.length channel b queues)[channel]? =
      some (q ++ [.ofPush calls.length channel b]) := by
  rw [← h.length_streams] at hn
  have hs := List.getElem?_eq_getElem hn
  obtain ⟨q, hq, -⟩ := h.exists_queue hs
  have hlt : channel < queues.length := (List.getElem?_eq_some_iff.1 hq).1
  have hcap : 1 ≤ m.streams[channel].capacity := Nat.le_max_right _ _
  refine ⟨q.drop (q.length + 1 - m.streams[channel].capacity), ?_⟩
  rw [Booked.arrived_eq_set hs hq, List.getElem?_set_self hlt,
    List.drop_append_of_le_length (by omega)]

end Balanced

section scalar

variable [Scalar α]

/-- The books after the call of number `serial`, if `queues` waited before it. -/
def Books.enter (m : Intake α) (serial : ℕ) (queues : List (List (Slip α))) : Call α → Books α
  | .push channel b _ =>
    ⟨Booked.arrived m serial channel b queues, [], Booked.evicted m channel queues, []⟩
  | .get now =>
    ⟨Booked.rest m now queues, Booked.sorted m now queues, [], Booked.stale m now queues⟩

/-! ### One call -/

namespace Intake

theorem HasRoom.call {m : Intake α} (h : m.HasRoom) (c : Call α) : (m.call c).2.HasRoom := by
  intro s' hs'
  cases c with
  | push channel b now =>
    rw [Intake.call, push?] at hs'
    cases hs : m.streams[channel]? with
    | none =>
      rw [hs] at hs'
      exact h s' hs'
    | some s =>
      rw [hs] at hs'
      rcases List.mem_or_eq_of_mem_set hs' with hs' | rfl
      · exact h s' hs'
      · have hcap : (s.push b now).capacity = s.capacity := rfl
        rw [hcap, s.push_queue, List.length_drop, List.length_append, List.length_singleton]
        omega
  | get now =>
    rw [Intake.call, release_streams] at hs'
    obtain ⟨s, hs, rfl⟩ := List.mem_map.1 hs'
    have hcap : (s.reportDelay now).2.capacity = s.capacity := by
      rw [Stream.capacity, s.reportDelay_eq now]
      rfl
    have hqueue := s.reportDelay_queue now
    calc ((s.reportDelay now).2.release _ _).2.queue.length
      _ ≤ (s.reportDelay now).2.queue.length := List.length_filter_le _ _
      _ = s.queue.length := by rw [hqueue]
      _ ≤ s.capacity := h s hs
      _ = _ := hcap.symm

end Intake

namespace Balanced

variable {channels : List (ChannelSettings α)} {calls : List (Call α)} {m : Intake α}
  {queues out evicted discarded : List (List (Slip α))}

theorem start {window : WindowSettings α} {start : Time α}
    (hm : Intake.ofSettings channels window start = .ok m) :
    Balanced channels [] m (m.streams.map fun _ => []) [] [] [] := by
  have hstreams : m.streams = channels.mapIdx Stream.ofSettings := Intake.ofSettings_streams hm
  refine ⟨Booked.start hm, Intake.ofSettings_channels hm, fun s hs => ?_, ?_⟩
  · rw [hstreams] at hs
    obtain ⟨i, hi, rfl⟩ := List.mem_mapIdx.1 hs
    exact Nat.zero_le _
  · have hnone : (m.streams.map fun _ => ([] : List (Slip α))).flatten = [] := by simp
    rw [hnone]
    exact List.Perm.refl _

/-- One call neither makes slips nor loses any. -/
theorem enter_perm (h : Booked calls m queues out) (c : Call α) :
    let books := Books.enter m calls.length queues c
    books.waiting.flatten ++ (books.released ++ (books.evicted ++ books.discarded)) ~
      queues.flatten ++ (Slip.ofCall? m.streams.length calls.length c).toList := by
  cases c with
  | push channel b now => simpa [Books.enter] using h.arrived_perm channel b now
  | get now => simpa [Books.enter, Slip.ofCall?] using Booked.release_perm now

/-- The books after one more call. -/
theorem enter (h : Balanced channels calls m queues out evicted discarded) (c : Call α) :
    let books := Books.enter m calls.length queues c
    Balanced channels (calls ++ [c]) (m.call c).2 books.waiting (out ++ [books.released])
      (evicted ++ [books.evicted]) (discarded ++ [books.discarded]) := by
  intro books
  refine ⟨?_, ?_, h.room.call c, ?_⟩
  · cases c with
    | push channel b now => exact h.toBooked.push channel b now
    | get now => exact h.toBooked.get now
  · rw [m.call_channels, h.settings]
  · have hone : books.waiting.flatten ++ (books.released ++ (books.evicted ++ books.discarded)) ~
        queues.flatten ++ (Slip.ofCall? m.streams.length calls.length c).toList :=
      enter_perm h.toBooked c
    rw [h.length_streams] at hone
    rw [Slip.arrivals_concat]
    -- what was queued is in the books of this call, and all else stays where it was
    classical
    rw [List.perm_iff_count]
    intro x
    have hbefore := h.conserved.count_eq x
    have hcall := hone.count_eq x
    simp only [List.flatten_append, List.flatten_singleton, List.count_append] at hbefore hcall ⊢
    omega

/-- What is discarded is older than the window. -/
theorem stale_ok (h : Balanced channels calls m queues out evicted discarded) {now : Time α}
    {x : Slip α} (hx : x ∈ Booked.stale m now queues) :
    x.serial < calls.length ∧ x.batch.stamp < (m.window now).1 := by
  obtain ⟨hmem, hold⟩ := List.mem_filter.1 hx
  obtain ⟨q, hq, hxq⟩ := List.mem_flatten.1 hmem
  exact ⟨(h.isPush_of_queue hq hxq).serial_lt, of_decide_eq_true hold⟩

end Balanced

/-! ### A run -/

namespace Intake

/-- The books after `k` of some calls. -/
def booksAt (m : Intake α) (calls : List (Call α)) : ℕ → Books α
  | 0 => ⟨m.streams.map fun _ => [], [], [], []⟩
  | k + 1 =>
    match calls[k]? with
    | none => ⟨(m.booksAt calls k).waiting, [], [], []⟩
    | some c => .enter (m.after (calls.take k)) k (m.booksAt calls k).waiting c

theorem booksAt_succ (m : Intake α) {calls : List (Call α)} {k : ℕ} {c : Call α}
    (hc : calls[k]? = some c) :
    m.booksAt calls (k + 1) =
      .enter (m.after (calls.take k)) k (m.booksAt calls k).waiting c := by
  rw [booksAt, hc]

/-- Only an arrival evicts. -/
theorem exists_push_of_evicted {m : Intake α} {calls : List (Call α)} {k : ℕ} {x : Slip α}
    (hx : x ∈ (m.booksAt calls (k + 1)).evicted) :
    ∃ i b now, calls[k]? = some (.push i b now) ∧
      x ∈ Booked.evicted (m.after (calls.take k)) i (m.booksAt calls k).waiting := by
  unfold booksAt at hx
  cases hc : calls[k]? with
  | none => simp [hc] at hx
  | some c =>
    rw [hc] at hx
    cases c with
    | push i b now => exact ⟨i, b, now, rfl, hx⟩
    | get now => cases hx

/-- Only a release discards. -/
theorem exists_get_of_discarded {m : Intake α} {calls : List (Call α)} {k : ℕ} {x : Slip α}
    (hx : x ∈ (m.booksAt calls (k + 1)).discarded) :
    ∃ now, calls[k]? = some (.get now) ∧
      x ∈ Booked.stale (m.after (calls.take k)) now (m.booksAt calls k).waiting := by
  unfold booksAt at hx
  cases hc : calls[k]? with
  | none => simp [hc] at hx
  | some c =>
    rw [hc] at hx
    cases c with
    | push i b now => cases hx
    | get now => exact ⟨now, rfl, hx⟩

theorem balanced_booksAt {channels : List (ChannelSettings α)} {window : WindowSettings α}
    {start : Time α} {m : Intake α} (hm : ofSettings channels window start = .ok m)
    (calls : List (Call α)) {k : ℕ} (hk : k ≤ calls.length) :
    Balanced channels (calls.take k) (m.after (calls.take k)) (m.booksAt calls k).waiting
      ((List.range k).map fun i => (m.booksAt calls (i + 1)).released)
      ((List.range k).map fun i => (m.booksAt calls (i + 1)).evicted)
      ((List.range k).map fun i => (m.booksAt calls (i + 1)).discarded) := by
  induction k with
  | zero => exact Balanced.start hm
  | succ k ih =>
    have hlt : k < calls.length := hk
    have hc : calls[k]? = some calls[k] := List.getElem?_eq_getElem hlt
    have hlength : (calls.take k).length = k := List.length_take_of_le hlt.le
    have hnext := (ih hlt.le).enter calls[k]
    rw [hlength, ← m.booksAt_succ hc] at hnext
    rw [List.take_succ_eq_append_getElem hlt, after_append, after_singleton, List.range_succ,
      List.map_append, List.map_append, List.map_append]
    exact hnext

/-- What the books of a run say about the batches that have arrived. -/
structure Accounts (channels : List (ChannelSettings α)) (window : WindowSettings α) (m : Intake α)
    (calls : List (Call α)) (waiting : ℕ → List (List (Slip α)))
    (released evicted discarded : ℕ → List (Slip α)) : Prop where
  /-- What waits after `k` calls is what the queues hold. -/
  queues : ∀ k ≤ calls.length, (m.after (calls.take k)).streams.map Stream.queue =
    (waiting k).map (List.map Slip.batch)
  /-- What the call of number `k` is said to release, it answers. -/
  releases : ∀ (k : ℕ) (c : Call α), calls[k]? = some c →
    ((m.after (calls.take k)).call c).1 = (released k).map Slip.batch
  /-- After any number of calls, every batch that has arrived is in one of the four places. -/
  conserved : ∀ k ≤ calls.length, (waiting k).flatten ++ ((List.range k).flatMap released ++
    ((List.range k).flatMap evicted ++ (List.range k).flatMap discarded)) ~
      Slip.arrivals channels.length (calls.take k)
  /-- It is there once, since no two slips are the same. -/
  distinct : ((Slip.arrivals channels.length calls).map Slip.serial).Nodup
  /-- It is evicted only by a later arrival on its channel, which leaves a queue full of batches
  that have all arrived after it. -/
  evictions : ∀ k, ∀ x ∈ evicted k, x.serial < k ∧
    ∃ (b : Batch α) (now : Time α) (s : ChannelSettings α) (q : List (Slip α)),
      calls[k]? = some (.push x.batch.channel b now) ∧ channels[x.batch.channel]? = some s ∧
      (waiting (k + 1))[x.batch.channel]? = some q ∧ q.length = max s.queueSize 1 ∧
      ∀ y ∈ q, x.serial < y.serial
  /-- It is discarded only by a release whose window begins after its stamp. -/
  discards : ∀ k, ∀ x ∈ discarded k, x.serial < k ∧ ∃ now, calls[k]? = some (.get now) ∧
    x.batch.stamp <
      (now - window.acceptableLatency).later (m.after (calls.take k)).latest
  /-- A queue has the batches of its channel in the order of their arrival, and no more than there
  is room for. -/
  order : ∀ k ≤ calls.length, ∀ (i : ℕ) (s : ChannelSettings α), channels[i]? = some s →
    ∃ q, (waiting k)[i]? = some q ∧ q.Pairwise (fun x y => x.serial < y.serial) ∧
      q.length ≤ max s.queueSize 1 ∧ ∀ x ∈ q, x.batch.channel = i
  /-- A batch that has just arrived is at the end of its queue. -/
  newest : ∀ (k i : ℕ) (b : Batch α) (now : Time α), calls[k]? = some (.push i b now) →
    i < channels.length → ∃ q, (waiting (k + 1))[i]? = some (q ++ [.ofPush k i b])

/-- **No batch is lost without a reason.** There are books of every run in which each batch that has
arrived waits in its queue, or has been released, evicted or discarded, and never two of these; they
say when, and they agree with all that the intake shows. -/
theorem accounting_ok (channels : List (ChannelSettings α)) (window : WindowSettings α)
    (start : Time α) (m : Intake α) (hm : ofSettings channels window start = .ok m)
    (calls : List (Call α)) :
    ∃ (waiting : ℕ → List (List (Slip α))) (released evicted discarded : ℕ → List (Slip α)),
      Accounts channels window m calls waiting released evicted discarded := by
  have hbooks {k : ℕ} (hk : k ≤ calls.length) := balanced_booksAt hm calls hk
  refine ⟨fun k => (m.booksAt calls k).waiting, fun k => (m.booksAt calls (k + 1)).released,
    fun k => (m.booksAt calls (k + 1)).evicted, fun k => (m.booksAt calls (k + 1)).discarded,
    fun k hk => (hbooks hk).same, fun k c hc => ?_, fun k hk => ?_, ?_, fun k x hx => ?_,
    fun k x hx => ?_, fun k hk i s hs => ?_, fun k i b now hc hi => ?_⟩
  · have hlt := (List.getElem?_eq_some_iff.1 hc).1
    rw [m.booksAt_succ hc]
    cases c with
    | push channel b now => rfl
    | get now => exact ((hbooks hlt.le).sorted_batches now).symm
  · simpa only [List.flatMap_def] using (hbooks hk).conserved
  · rw [List.Nodup, List.pairwise_map]
    exact (Slip.arrivals_pairwise _ _).imp fun h => h.ne
  · obtain ⟨i, b, now, hc, hx⟩ := exists_push_of_evicted hx
    have hlt := (List.getElem?_eq_some_iff.1 hc).1
    have hok := (hbooks hlt.le).evicted_ok hx b
    rw [List.length_take_of_le hlt.le] at hok
    obtain ⟨hserial, rfl, s, q, hs, hq, hfull, hlater⟩ := hok
    refine ⟨hserial, b, now, s, q, hc, hs, ?_, hfull, hlater⟩
    rw [← hq, m.booksAt_succ hc]
    rfl
  · obtain ⟨now, hc, hx⟩ := exists_get_of_discarded hx
    have hlt := (List.getElem?_eq_some_iff.1 hc).1
    obtain ⟨hserial, hstamp⟩ := (hbooks hlt.le).stale_ok hx
    rw [List.length_take_of_le hlt.le] at hserial
    rw [Intake.window, after_settings, ofSettings_settings hm] at hstamp
    exact ⟨hserial, now, hc, hstamp⟩
  · exact (hbooks hk).queue_ok hs
  · have hlt := (List.getElem?_eq_some_iff.1 hc).1
    have hq := (hbooks hlt.le).newest_ok hi b
    rw [List.length_take_of_le hlt.le] at hq
    show ∃ q, (m.booksAt calls (k + 1)).waiting[i]? = _
    rw [m.booksAt_succ hc]
    exact hq

/-- One batch too many for a queue, and a release. -/
def oneTooMany : List (Call Float) :=
  let b : Batch Float := ⟨⟨1⟩, "map", 0, []⟩
  [.push 0 b ⟨1⟩, .push 0 b ⟨1⟩, .push 0 b ⟨1⟩, .get ⟨1.25⟩]

theorem accounting_ok_oneTooMany :
    ∃ m : Intake Float, ofSettings [.usual] .usual ⟨0⟩ = .ok m ∧
      ∃ (waiting : ℕ → List (List (Slip Float)))
        (released evicted discarded : ℕ → List (Slip Float)),
        Accounts [.usual] .usual m oneTooMany waiting released evicted discarded :=
  ⟨_, rfl, accounting_ok [.usual] .usual ⟨0⟩ _ rfl oneTooMany⟩

end Intake

end scalar

end TrackFusion
