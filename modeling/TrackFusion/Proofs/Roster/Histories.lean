import TrackFusion.Proofs.Exact
import TrackFusion.Proofs.Roster.Ledger
import TrackFusion.Proofs.Track.Reachable

/-!
# Histories of tracks

The steps of a roster may be taken in any order, at any times and with any maps. An update finds a
track by its place in the list, and places change as tracks come and go; its history is told by its
name, which stays.

* `Roster.Step`, `Roster.after`: runs of steps; `startedIn` is what a run has started.
* `Roster.history`: what the updates of a run had for the track of a name.
* `Track.Became`: how the counts of a track follow from its history.
* `Roster.Booked.concat`: what one step writes down.
* `Roster.histories_ok`: after every run the list has some of the tracks that were started, in their
  order, each with the counts of its own history; and whoever is gone does not return.
-/

namespace TrackFusion

variable {α : Type}

/-- What a model is for good: its kind, and the assumptions that it goes by. -/
inductive TrackModel.Form (α : Type) where
  | box (profile : BoxProfile α)
  | point (profile : PointProfile α)
  | unclassified (profile : PointProfile α)
  | passThrough

def TrackModel.form : TrackModel α → Form α
  | box b => .box b.profile
  | point p => .point p.profile
  | unclassified p => .unclassified p.profile
  | passThrough _ => .passThrough

/-- What became of a new track `t₀`. There is an entry for each update: the stamp of the detection
that the track took, or nothing if it missed the batch. -/
structure Track.Became (t₀ : Track α) (entries : List (Option (Time α))) (t : Track α) : Prop where
  id : t.id = t₀.id
  kind : t.kind = t₀.kind
  form : t.model.form = t₀.model.form
  /-- The detection that the track started from counts. -/
  hits : t.hits = 1 + entries.countP Option.isSome
  misses : t.misses = entries.countP Option.isNone
  missStreak : t.missStreak = (entries.reverse.takeWhile Option.isNone).length
  lastMeasured : t.lastMeasured = entries.reduceOption.getLastD t₀.lastMeasured

namespace Roster

/-- What the owner of a roster may do. -/
inductive Step (α : Type) where
  | predict (now : Time α)
  | update (b : Batch α) (ego : Isometry α) (direct : IndexMap)
  | spawn (b : Batch α) (reverse : IndexMap)
  | prune (now : Time α)

/-- What an update has for the track at a place: the stamp of a detection, or nothing. -/
def handed (b : Batch α) (direct : IndexMap) (i : ℕ) : Option (Time α) :=
  ((direct.get? i).bind fun j => b.objects[j]?).map fun _ => b.stamp

/-- What a step has for the track of a name, wherever that stands. Only updates have something, and
only for a track that is there. -/
def entryFor (r : Roster α) (id : TrackId) : Step α → List (Option (Time α))
  | .update b _ direct => ((r.tracks.findIdx? fun t => t.id = id).map (handed b direct)).toList
  | _ => []

/-! ### Entries -/

section entries

variable {r : Roster α} {id : TrackId}

theorem entryFor_eq_nil (h : id ∉ r.tracks.map Track.id) (s : Step α) : r.entryFor id s = [] := by
  cases s with
  | update b ego direct =>
    have hnone : r.tracks.findIdx? (fun t => t.id = id) = none := by
      rw [List.findIdx?_eq_none_iff]
      intro t ht
      have hne : t.id ≠ id := fun hid => h (hid ▸ List.mem_map_of_mem ht)
      exact decide_eq_false hne
    rw [entryFor, hnone]
    rfl
  | predict now => rfl
  | spawn b reverse => rfl
  | prune now => rfl

theorem length_entryFor_le (s : Step α) : (r.entryFor id s).length ≤ 1 := by
  cases s with
  | update b ego direct =>
    unfold entryFor
    cases r.tracks.findIdx? (fun t => t.id = id) <;> simp
  | predict now => exact Nat.zero_le 1
  | spawn b reverse => exact Nat.zero_le 1
  | prune now => exact Nat.zero_le 1

/-- The track of a name is found in its place. -/
theorem entryFor_update (h : (r.tracks.map Track.id).Nodup) (b : Batch α) (ego : Isometry α)
    (direct : IndexMap) {i : ℕ} (hi : i < r.tracks.length) :
    r.entryFor (r.tracks.get ⟨i, hi⟩).id (.update b ego direct) = [handed b direct i] := by
  have hplace : r.tracks.findIdx? (fun t => t.id = (r.tracks.get ⟨i, hi⟩).id) = some i := by
    rw [List.findIdx?_eq_some_iff_getElem]
    refine ⟨hi, decide_eq_true rfl, fun j hj heq => ?_⟩
    have hids : (r.tracks.get ⟨j, by omega⟩).id = (r.tracks.get ⟨i, hi⟩).id := of_decide_eq_true heq
    have hplaces := List.inj_on_of_nodup_map h (List.get_mem _ _) (List.get_mem _ _) hids
    have hnodup : r.tracks.Nodup := List.Nodup.of_map Track.id h
    have hji : j = i := congrArg Fin.val (hnodup.injective_get hplaces)
    omega
  rw [entryFor, hplace]
  rfl

end entries

end Roster

variable [Scalar α]

/-! ### Models -/

namespace TrackModel

theorem form_limit (m : TrackModel α) : m.limit.form = m.form := by
  cases m <;> rfl

theorem form_predict? {m m' : TrackModel α} {now : Time α} (h : m.predict? now = some m') :
    m'.form = m.form := by
  cases m with
  | box b =>
    obtain ⟨b', hb', rfl⟩ := Option.map_eq_some_iff.1 h
    obtain ⟨e, -, rfl⟩ := Option.map_eq_some_iff.1 hb'
    rfl
  | point p =>
    obtain ⟨p', hp', rfl⟩ := Option.map_eq_some_iff.1 h
    obtain ⟨e, -, rfl⟩ := Option.map_eq_some_iff.1 hp'
    rfl
  | unclassified p =>
    obtain ⟨p', hp', rfl⟩ := Option.map_eq_some_iff.1 h
    obtain ⟨e, -, rfl⟩ := Option.map_eq_some_iff.1 hp'
    rfl
  | passThrough p =>
    cases h
    rfl

theorem form_measure (m : TrackModel α) (d : Detection α) (now : Time α) (ego : Isometry α) :
    (m.measure d now ego).1.form = m.form := by
  cases m with
  | box b => exact congrArg Form.box (b.measure_profile d ego)
  | point p => rfl
  | unclassified p => rfl
  | passThrough p => rfl

end TrackModel

/-! ### Tracks -/

namespace Track

variable {t₀ t : Track α} {entries : List (Option (Time α))}

theorem became_spawn (id : TrackId) (now : Time α) (d : Detection α) (kind : TrackKind) :
    (spawn id now d kind).Became [] (spawn id now d kind) := by
  constructor <;> rfl

theorem form_carried (t : Track α) (now : Time α) :
    (t.carried now).model.form = t.model.form := by
  rw [Track.carried, predict?]
  cases hm : t.model.predict? now with
  | none => rfl
  | some m => exact m.form_limit.trans (TrackModel.form_predict? hm)

theorem Became.carried (h : t₀.Became entries t) (now : Time α) :
    t₀.Became entries (t.carried now) := by
  rw [carried_eq]
  exact ⟨h.id, h.kind, (t.form_carried now).trans h.form, h.hits, h.misses, h.missStreak,
    h.lastMeasured⟩

theorem Became.measure (h : t₀.Became entries t) (d : Detection α) (now : Time α)
    (ego : Isometry α) : t₀.Became (entries ++ [some now]) (t.measure d now ego).1 where
  id := h.id
  kind := h.kind
  form := (t.model.form_measure d now ego).trans h.form
  hits := by
    have hhits : (t.measure d now ego).1.hits = t.hits + 1 := rfl
    rw [hhits, h.hits]
    simp [Nat.add_assoc]
  misses := by
    have hmisses : (t.measure d now ego).1.misses = t.misses := rfl
    rw [hmisses, h.misses]
    simp
  missStreak := by
    have hstreak : (t.measure d now ego).1.missStreak = 0 := rfl
    rw [hstreak]
    simp
  lastMeasured := by
    have hlast : (t.measure d now ego).1.lastMeasured = now := rfl
    rw [hlast]
    simp [List.reduceOption_append]

omit [Scalar α] in
theorem Became.miss (h : t₀.Became entries t) : t₀.Became (entries ++ [none]) t.miss where
  id := h.id
  kind := h.kind
  form := h.form
  hits := by
    have hhits : t.miss.hits = t.hits := rfl
    rw [hhits, h.hits]
    simp
  misses := by
    have hmisses : t.miss.misses = t.misses + 1 := rfl
    rw [hmisses, h.misses]
    simp
  missStreak := by
    have hstreak : t.miss.missStreak = t.missStreak + 1 := rfl
    rw [hstreak, h.missStreak]
    simp
  lastMeasured := by
    have hlast : t.miss.lastMeasured = t.lastMeasured := rfl
    rw [hlast, h.lastMeasured]
    simp [List.reduceOption_append]

theorem Became.updated (h : t₀.Became entries t) (b : Batch α) (ego : Isometry α)
    (direct : IndexMap) (i : ℕ) :
    t₀.Became (entries ++ [Roster.handed b direct i])
      (Roster.updateTrack b ego (direct.get? i) t) := by
  unfold Roster.handed Roster.updateTrack
  cases (direct.get? i).bind fun j => b.objects[j]? with
  | some d => exact h.measure d b.stamp ego
  | none => exact h.miss

omit [Scalar α] in
/-- All that an update has for a track is counted once. -/
theorem Became.counted (h : t₀.Became entries t) : t.hits + t.misses = 1 + entries.length := by
  have hlength := List.length_eq_countP_add_countP Option.isSome (l := entries)
  have hnone : entries.countP (fun e => ¬ e.isSome = true) = entries.countP Option.isNone := by
    refine List.countP_congr fun e _ => ?_
    simp
  rw [h.hits, h.misses, hlength, hnone]
  omega

omit [Scalar α] in
/-- A history shorter than a run leads to counts that the run can come to. -/
theorem Became.countedIn (h : t₀.Became entries t) {cycles : ℕ} (hshort : entries.length < cycles) :
    t.CountedIn cycles := by
  have hsome : entries.countP Option.isSome ≤ entries.length := List.countP_le_length
  have hnone : entries.countP Option.isNone ≤ entries.length := List.countP_le_length
  have hlast : (entries.reverse.takeWhile Option.isNone).length ≤ entries.length :=
    (List.takeWhile_prefix _).length_le.trans_eq List.length_reverse
  refine ⟨?_, ?_, ?_⟩
  · rw [h.hits]
    omega
  · rw [h.misses]
    omega
  · rw [h.missStreak]
    omega

end Track

namespace Roster

/-! ### Runs -/

def step (r : Roster α) : Step α → Roster α
  | .predict now => r.predict now
  | .update b ego direct => r.update b ego direct
  | .spawn b reverse => r.spawn b reverse
  | .prune now => r.prune now

/-- The roster after some steps. -/
def after (r : Roster α) (steps : List (Step α)) : Roster α := steps.foldl step r

/-- The tracks that a step starts, as they start. -/
def startedBy (r : Roster α) : Step α → List (Track α)
  | .spawn b reverse => (unmatched b reverse).mapIdx (r.started b.stamp)
  | _ => []

/-- The tracks that some steps start, in their order. -/
def startedIn (r : Roster α) : List (Step α) → List (Track α)
  | [] => []
  | s :: steps => r.startedBy s ++ (r.step s).startedIn steps

/-- What some steps have for the track of a name. -/
def history (r : Roster α) (id : TrackId) : List (Step α) → List (Option (Time α))
  | [] => []
  | s :: steps => r.entryFor id s ++ (r.step s).history id steps

section append

variable (r : Roster α) (steps later : List (Step α)) (s : Step α)

theorem after_append : r.after (steps ++ later) = (r.after steps).after later :=
  List.foldl_append

theorem startedIn_append :
    r.startedIn (steps ++ later) = r.startedIn steps ++ (r.after steps).startedIn later := by
  induction steps generalizing r with
  | nil => rfl
  | cons s steps ih =>
    rw [List.cons_append, startedIn, ih, startedIn, List.append_assoc]
    rfl

theorem history_append (id : TrackId) :
    r.history id (steps ++ later) = r.history id steps ++ (r.after steps).history id later := by
  induction steps generalizing r with
  | nil => rfl
  | cons s steps ih =>
    rw [List.cons_append, history, ih, history, List.append_assoc]
    rfl

theorem after_concat : r.after (steps ++ [s]) = (r.after steps).step s := r.after_append steps [s]

theorem startedIn_concat :
    r.startedIn (steps ++ [s]) = r.startedIn steps ++ (r.after steps).startedBy s := by
  rw [startedIn_append, startedIn, startedIn, List.append_nil]

theorem history_concat (id : TrackId) :
    r.history id (steps ++ [s]) = r.history id steps ++ (r.after steps).entryFor id s := by
  rw [history_append, history, history, List.append_nil]

end append

/-! ### Names -/

theorem spawn_eq (r : Roster α) (b : Batch α) (reverse : IndexMap) :
    r.spawn b reverse =
      { r with
        tracks := r.tracks ++ r.startedBy (.spawn b reverse)
        ids := ⟨r.ids.stream, r.ids.used + (r.startedBy (.spawn b reverse)).length⟩ } := by
  rw [spawn, foldl_start, startedBy, List.length_mapIdx]

theorem startedBy_ids (r : Roster α) (s : Step α) :
    (r.startedBy s).map Track.id =
      (List.range' r.ids.used (r.startedBy s).length).map r.ids.stream.nth := by
  cases s with
  | spawn b reverse => rw [startedBy, started_ids, List.length_mapIdx]
  | predict now => rfl
  | update b ego direct => rfl
  | prune now => rfl

theorem step_used (r : Roster α) (s : Step α) :
    (r.step s).ids.used = r.ids.used + (r.startedBy s).length := by
  cases s with
  | spawn b reverse => rw [step, spawn_eq]
  | predict now => rfl
  | update b ego direct => rfl
  | prune now => rfl

theorem step_stream (r : Roster α) (s : Step α) : (r.step s).ids.stream = r.ids.stream := by
  cases s with
  | spawn b reverse => rw [step, spawn_eq]
  | predict now => rfl
  | update b ego direct => rfl
  | prune now => rfl

theorem after_stream (r : Roster α) (steps : List (Step α)) :
    (r.after steps).ids.stream = r.ids.stream := by
  induction steps using List.reverseRecOn with
  | nil => rfl
  | append_singleton steps s ih => rw [after_concat, step_stream, ih]

/-- No step brings a name back or changes their order, and new ones come last. -/
theorem step_ids (r : Roster α) (s : Step α) :
    ((r.step s).tracks.map Track.id).Sublist
      (r.tracks.map Track.id ++ (r.startedBy s).map Track.id) := by
  cases s with
  | predict now =>
    have hids : (r.predict now).tracks.map Track.id = r.tracks.map Track.id := by
      rw [predict, List.map_map]
      exact List.map_congr_left fun t _ => t.carried_id now
    rw [step, hids]
    exact List.sublist_append_left _ _
  | update b ego direct =>
    have hid : ∀ j? (t : Track α), (updateTrack b ego j? t).id = t.id := by
      intro j? t
      unfold updateTrack
      split <;> rfl
    have hids : (r.update b ego direct).tracks.map Track.id = r.tracks.map Track.id := by
      refine List.ext_getElem (by simp [update]) fun i h h' => ?_
      simp [update, hid]
    rw [step, hids]
    exact List.sublist_append_left _ _
  | spawn b reverse => rw [step, spawn_eq, List.map_append]
  | prune now =>
    exact ((r.prune_sublist now).map Track.id).trans (List.sublist_append_left _ _)

theorem after_ids (r : Roster α) (steps : List (Step α)) :
    ((r.after steps).tracks.map Track.id).Sublist
      (r.tracks.map Track.id ++ (r.startedIn steps).map Track.id) := by
  induction steps using List.reverseRecOn with
  | nil => exact List.sublist_append_left _ _
  | append_singleton steps s ih =>
    rw [after_concat, startedIn_concat, List.map_append, ← List.append_assoc]
    exact ((r.after steps).step_ids s).trans (ih.append_right _)

theorem startedIn_ids (r : Roster α) (steps : List (Step α)) :
    (r.startedIn steps).map Track.id =
        (List.range' r.ids.used (r.startedIn steps).length).map r.ids.stream.nth ∧
      (r.after steps).ids.used = r.ids.used + (r.startedIn steps).length := by
  induction steps using List.reverseRecOn with
  | nil => exact ⟨rfl, rfl⟩
  | append_singleton steps s ih =>
    obtain ⟨hids, hused⟩ := ih
    rw [startedIn_concat, List.map_append, hids, startedBy_ids, after_stream, hused,
      List.length_append,
      ← List.range'_append_1, List.map_append, after_concat, step_used, hused, Nat.add_assoc]
    exact ⟨rfl, rfl⟩

/-! ### Runs from the beginning -/

variable {r₀ : Roster α} {steps : List (Step α)}

/-- No track has been started yet. -/
structure Unused (r₀ : Roster α) : Prop where
  tracks : r₀.tracks = []
  ids : r₀.ids.used = 0

namespace Unused

theorem ids_sublist (h : r₀.Unused) (steps : List (Step α)) :
    ((r₀.after steps).tracks.map Track.id).Sublist ((r₀.startedIn steps).map Track.id) := by
  have hids := r₀.after_ids steps
  rwa [h.tracks, List.map_nil, List.nil_append] at hids

theorem started_ids (h : r₀.Unused) (steps : List (Step α)) :
    (r₀.startedIn steps).map Track.id =
      (List.range (r₀.after steps).ids.used).map r₀.ids.stream.nth := by
  obtain ⟨hids, hused⟩ := r₀.startedIn_ids steps
  rw [hids, hused, h.ids, Nat.zero_add, List.range_eq_range']

theorem nodup_started (h : r₀.Unused) (steps : List (Step α)) :
    ((r₀.startedIn steps).map Track.id).Nodup := by
  rw [h.started_ids]
  exact List.nodup_range.map fun _ _ => r₀.ids.stream.nth_inj

theorem nodup (h : r₀.Unused) (steps : List (Step α)) :
    ((r₀.after steps).tracks.map Track.id).Nodup :=
  (h.nodup_started steps).sublist (h.ids_sublist steps)

/-- A name that has not been given out is nobody's. -/
theorem not_mem (h : r₀.Unused) {k : ℕ} (hk : (r₀.after steps).ids.used ≤ k) :
    r₀.ids.stream.nth k ∉ (r₀.after steps).tracks.map Track.id := by
  intro hmem
  have hstarted := (h.ids_sublist steps).subset hmem
  rw [h.started_ids, List.mem_map] at hstarted
  obtain ⟨i, hi, hik⟩ := hstarted
  have hlt := List.mem_range.1 hi
  rw [r₀.ids.stream.nth_inj hik] at hlt
  omega

/-- A track that is gone does not return: the names that are given out later are others. -/
theorem gone (h : r₀.Unused) {t₀ : Track α} (ht₀ : t₀ ∈ r₀.startedIn steps)
    (hgone : t₀.id ∉ (r₀.after steps).tracks.map Track.id) (later : List (Step α)) :
    t₀.id ∉ (r₀.after (steps ++ later)).tracks.map Track.id := by
  intro hback
  rw [after_append] at hback
  rcases List.mem_append.1 (((r₀.after steps).after_ids later).subset hback) with hold | hnew
  · exact hgone hold
  · have hnodup := h.nodup_started (steps ++ later)
    rw [startedIn_append, List.map_append] at hnodup
    exact (List.nodup_append.1 hnodup).2.2 _ (List.mem_map_of_mem ht₀) _ hnew rfl

end Unused

/-! ### The books -/

/-- The books of a run. -/
structure Booked (r₀ : Roster α) (steps : List (Step α)) : Prop where
  /-- Nothing is said about names that have not been given out. -/
  fresh : ∀ k, (r₀.after steps).ids.used ≤ k → r₀.history (r₀.ids.stream.nth k) steps = []
  /-- The step that starts a track has nothing else for it. -/
  short : ∀ t₀ ∈ r₀.startedIn steps, (r₀.history t₀.id steps).length < steps.length
  lives : ∀ t ∈ (r₀.after steps).tracks, ∃ t₀ ∈ r₀.startedIn steps,
    t₀.Became (r₀.history t₀.id steps) t

namespace Booked

/-- A name has no history after the step that gives it out. -/
theorem history_startedBy (h : Booked r₀ steps) (hr₀ : r₀.Unused) {s : Step α} {t₀ : Track α}
    (ht₀ : t₀ ∈ (r₀.after steps).startedBy s) : r₀.history t₀.id (steps ++ [s]) = [] := by
  have hid := List.mem_map_of_mem (f := Track.id) ht₀
  rw [startedBy_ids, List.mem_map] at hid
  obtain ⟨k, hk, hkid⟩ := hid
  have hle : (r₀.after steps).ids.used ≤ k := (List.mem_range'_1.1 hk).1
  rw [after_stream] at hkid
  rw [← hkid, history_concat, h.fresh k hle, entryFor_eq_nil (hr₀.not_mem hle), List.nil_append]

/-- **What a step writes down.** -/
theorem concat (h : Booked r₀ steps) (hr₀ : r₀.Unused) (s : Step α) :
    Booked r₀ (steps ++ [s]) where
  fresh := by
    intro k hk
    rw [after_concat, step_used] at hk
    have hle : (r₀.after steps).ids.used ≤ k := by omega
    rw [history_concat, h.fresh k hle, entryFor_eq_nil (hr₀.not_mem hle), List.nil_append]
  short := by
    intro t₀ ht₀
    rw [startedIn_concat] at ht₀
    rcases List.mem_append.1 ht₀ with hold | hnew
    · have hlength := h.short t₀ hold
      have hentry : ((r₀.after steps).entryFor t₀.id s).length ≤ 1 := length_entryFor_le s
      rw [history_concat, List.length_append, List.length_append, List.length_singleton]
      omega
    · rw [h.history_startedBy hr₀ hnew, List.length_append, List.length_singleton]
      exact Nat.succ_pos _
  lives := by
    have hold : ∀ t₀ ∈ r₀.startedIn steps, t₀ ∈ r₀.startedIn (steps ++ [s]) := by
      intro t₀ ht₀
      rw [startedIn_concat]
      exact List.mem_append_left _ ht₀
    -- a step that has nothing for anybody leaves the tracks what they became
    have hquiet : ∀ t ∈ (r₀.after steps).tracks, (∀ id, (r₀.after steps).entryFor id s = []) →
        ∃ t₀ ∈ r₀.startedIn (steps ++ [s]), t₀.Became (r₀.history t₀.id (steps ++ [s])) t := by
      intro t ht hnil
      obtain ⟨t₀, ht₀, hlife⟩ := h.lives t ht
      refine ⟨t₀, hold t₀ ht₀, ?_⟩
      rwa [history_concat, hnil, List.append_nil]
    intro t' ht'
    rw [after_concat] at ht'
    cases s with
    | predict now =>
      obtain ⟨t, ht, rfl⟩ := List.mem_map.1 ht'
      obtain ⟨t₀, ht₀, hlife⟩ := hquiet t ht fun _ => rfl
      exact ⟨t₀, ht₀, hlife.carried now⟩
    | update b ego direct =>
      obtain ⟨i, hi, rfl⟩ := List.mem_mapIdx.1 ht'
      obtain ⟨t₀, ht₀, hlife⟩ := h.lives _ (List.get_mem _ ⟨i, hi⟩)
      have hentry := entryFor_update (hr₀.nodup steps) b ego direct hi
      rw [hlife.id] at hentry
      refine ⟨t₀, hold t₀ ht₀, ?_⟩
      rw [history_concat, hentry]
      exact hlife.updated b ego direct i
    | spawn b reverse =>
      rw [step, spawn_eq] at ht'
      rcases List.mem_append.1 ht' with ht | hnew
      · exact hquiet t' ht fun _ => rfl
      · refine ⟨t', ?_, ?_⟩
        · rw [startedIn_concat]
          exact List.mem_append_right _ hnew
        · rw [h.history_startedBy hr₀ hnew]
          obtain ⟨k, hk, rfl⟩ := List.mem_mapIdx.1 hnew
          exact Track.became_spawn _ _ _ _
    | prune now => exact hquiet t' (((r₀.after steps).prune_sublist now).subset ht') fun _ => rfl

theorem run (hr₀ : r₀.Unused) (steps : List (Step α)) : Booked r₀ steps := by
  induction steps using List.reverseRecOn with
  | nil =>
    refine ⟨fun _ _ => rfl, fun t₀ ht₀ => absurd ht₀ List.not_mem_nil, fun t ht => ?_⟩
    have hnil : t ∈ r₀.tracks := ht
    rw [hr₀.tracks] at hnil
    exact absurd hnil List.not_mem_nil
  | append_singleton steps s ih => exact ih.concat hr₀ s

/-- A track is later what it was for good, and has had no fewer detections. -/
theorem later {later : List (Step α)} (h : Booked r₀ steps) (h' : Booked r₀ (steps ++ later))
    (hr₀ : r₀.Unused) {t t' : Track α} (ht : t ∈ (r₀.after steps).tracks)
    (ht' : t' ∈ (r₀.after (steps ++ later)).tracks) (hid : t'.id = t.id) :
    t'.kind = t.kind ∧ t'.model.form = t.model.form ∧ t.hits ≤ t'.hits := by
  obtain ⟨t₀, ht₀, hlife⟩ := h.lives t ht
  obtain ⟨t₀', ht₀', hlife'⟩ := h'.lives t' ht'
  have hstarted : t₀ ∈ r₀.startedIn (steps ++ later) := by
    rw [startedIn_append]
    exact List.mem_append_left _ ht₀
  -- both came from the track of that name
  have hsame : t₀' = t₀ :=
    List.inj_on_of_nodup_map (hr₀.nodup_started (steps ++ later)) ht₀' hstarted
      (hlife'.id.symm.trans (hid.trans hlife.id))
  subst hsame
  refine ⟨hlife'.kind.trans hlife.kind.symm, hlife'.form.trans hlife.form.symm, ?_⟩
  rw [hlife.hits, hlife'.hits, history_append, List.countP_append]
  omega

end Booked

/-- **Tracks keep their names and their books.** After every run of steps from an empty list, the
tracks are some of those that were started, in their order, and no two of them have one name. Each
of them is what became of the one that was started with its name: with the counts and the time that
follow from the updates that had a detection for it and those that had none. No count exceeds the
number of steps, so that 32 bits are enough for fewer than `2 ^ 32` of them. Whatever steps come
later, a track that is gone does not return, and one that is there keeps its kind, its model and its
confirmation. -/
theorem histories_ok (settings : RosterSettings α) (kinds : KindTable) (ids : IdStream)
    (steps : List (Step α)) :
    let r₀ : Roster α := empty settings kinds ids
    ((r₀.startedIn steps).map Track.id).Nodup ∧
    ((r₀.after steps).tracks.map Track.id).Sublist ((r₀.startedIn steps).map Track.id) ∧
    (∀ t ∈ (r₀.after steps).tracks, t.hits + t.misses ≤ steps.length ∧ t.CountedIn steps.length ∧
      (steps.length < 2 ^ 32 → t.CountsFit) ∧
      ∃ t₀ ∈ r₀.startedIn steps, t₀.Became (r₀.history t₀.id steps) t) ∧
    ∀ later : List (Step α),
      (∀ t₀ ∈ r₀.startedIn steps, t₀.id ∉ (r₀.after steps).tracks.map Track.id →
        t₀.id ∉ (r₀.after (steps ++ later)).tracks.map Track.id) ∧
      ∀ t ∈ (r₀.after steps).tracks, ∀ t' ∈ (r₀.after (steps ++ later)).tracks, t'.id = t.id →
        t'.kind = t.kind ∧ t'.model.form = t.model.form ∧
          ∀ n, t.isConfirmed n = true → t'.isConfirmed n = true := by
  intro r₀
  have hunused : r₀.Unused := ⟨rfl, rfl⟩
  have hbooked := Booked.run hunused steps
  refine ⟨hunused.nodup_started steps, hunused.ids_sublist steps, ?_, ?_⟩
  · intro t ht
    obtain ⟨t₀, ht₀, hlife⟩ := hbooked.lives t ht
    have hcounted := hlife.counted
    have hshort := hbooked.short t₀ ht₀
    have hcounts := hlife.countedIn hshort
    exact ⟨by omega, hcounts, hcounts.fit, t₀, ht₀, hlife⟩
  · intro later
    refine ⟨fun t₀ ht₀ hgone => hunused.gone ht₀ hgone later, ?_⟩
    intro t ht t' ht' hid
    obtain ⟨hkind, hform, hhits⟩ :=
      hbooked.later (Booked.run hunused (steps ++ later)) hunused ht ht' hid
    refine ⟨hkind, hform, fun n hn => ?_⟩
    have hle : n ≤ t.hits := of_decide_eq_true hn
    exact decide_eq_true (hle.trans hhits)

/-! ### Two cars -/

/-- Some cars in one place. -/
def carsAt (stamp : ℚ) (n : ℕ) : Batch ℚ where
  stamp := ⟨stamp⟩
  frame := "map"
  channel := 0
  objects := List.replicate n ⟨1, [⟨.car, 1⟩], .ofPose .origin, .box ⟨4, 2, 1⟩⟩

/-- Two cars are seen, then only the second one, and the first one is forgotten. -/
def twoCars : List (Step ℚ) :=
  [.spawn (carsAt 0 2) .empty, .update (carsAt 2 1) .identity ⟨[(1, 0)]⟩, .prune ⟨2⟩]

/-- Then the second car, which has moved up to the first place, is seen again, and a new one. -/
def thirdCar : List (Step ℚ) :=
  [.predict ⟨3⟩, .update (carsAt 3 1) .identity ⟨[(0, 0)]⟩, .spawn (carsAt 3 1) .empty]

theorem histories_ok_twoCars :
    let r₀ : Roster ℚ := empty .usual .usual .counting
    (∃ t₀ ∈ r₀.startedIn twoCars, t₀.id = IdStream.counting.nth 0 ∧
      t₀.id ∉ (r₀.after twoCars).tracks.map Track.id ∧
      t₀.id ∉ (r₀.after (twoCars ++ thirdCar)).tracks.map Track.id) ∧
    ∃ t ∈ (r₀.after twoCars).tracks, ∃ t' ∈ (r₀.after (twoCars ++ thirdCar)).tracks,
      t.id = IdStream.counting.nth 1 ∧ t'.id = t.id ∧
      (∃ t₀ ∈ r₀.startedIn twoCars, t₀.Became [some ⟨2⟩] t) ∧ t.CountsFit ∧
      t.isConfirmed 2 = true ∧ t'.isConfirmed 2 = true := by
  intro r₀
  have hstarted : (r₀.startedIn twoCars).map Track.id =
      [IdStream.counting.nth 0, IdStream.counting.nth 1] := by
    decide +kernel
  have hids : (r₀.after twoCars).tracks.map Track.id = [IdStream.counting.nth 1] := by
    decide +kernel
  have hids' : (r₀.after (twoCars ++ thirdCar)).tracks.map Track.id =
      [IdStream.counting.nth 1, IdStream.counting.nth 2] := by
    decide +kernel
  have hmem : IdStream.counting.nth 1 ∈ (r₀.after twoCars).tracks.map Track.id := by
    rw [hids]
    exact List.mem_cons_self
  have hmem' : IdStream.counting.nth 1 ∈ (r₀.after (twoCars ++ thirdCar)).tracks.map Track.id := by
    rw [hids']
    exact List.mem_cons_self
  have hfirst : IdStream.counting.nth 0 ∈ (r₀.startedIn twoCars).map Track.id := by
    rw [hstarted]
    exact List.mem_cons_self
  obtain ⟨t, ht, hid⟩ := List.mem_map.1 hmem
  obtain ⟨t', ht', hid'⟩ := List.mem_map.1 hmem'
  obtain ⟨t₁, ht₁, hid₁⟩ := List.mem_map.1 hfirst
  obtain ⟨-, -, hlives, hlater⟩ := histories_ok (α := ℚ) .usual .usual .counting twoCars
  obtain ⟨hgone, hkept⟩ := hlater thirdCar
  obtain ⟨-, -, hfit, t₀, ht₀, hlife⟩ := hlives t ht
  have hhistory : r₀.history (IdStream.counting.nth 1) twoCars = [some ⟨2⟩] := by
    decide +kernel
  rw [← hlife.id, hid] at hlife
  have hbecame : t₀.Became [some ⟨2⟩] t := hhistory ▸ hlife
  have hconfirmed : t.isConfirmed 2 = true := by
    rw [Track.isConfirmed, hbecame.hits]
    rfl
  have hnot : t₁.id ∉ (r₀.after twoCars).tracks.map Track.id := by
    rw [hid₁, hids]
    decide
  exact ⟨⟨t₁, ht₁, hid₁, hnot, hgone t₁ ht₁ hnot⟩, t, ht, t', ht', hid, hid'.trans hid.symm,
    ⟨t₀, ht₀, hbecame⟩, hfit (by decide), hconfirmed,
    (hkept t ht t' ht' (hid'.trans hid.symm)).2.2 2 hconfirmed⟩

end Roster

end TrackFusion
