import TrackFusion.Proofs.Association.Pairs
import TrackFusion.Proofs.Roster.Suppression

/-!
# What a batch does to the tracks

Every track has one more detection or one more miss, and every detection that no track has starts
one.

* `Track.carried`: a track at the time of the batch.
* `Roster.absorb_eq`: the old tracks come first, and then the new ones.
* `Roster.Named`: identities are given out once; absorbing and pruning keep it.
* `Track.CountedIn`: what so many batches can come to; `Roster.countedIn_absorb` is one more batch.
* `Roster.Ledger`, `Roster.absorb_ledger`: every detection is used exactly once.
-/

namespace TrackFusion

variable {α : Type}

/-! ### Counts -/

namespace Track

/-- The counts of a track are such as so many batches can have come to. -/
structure CountedIn (cycles : ℕ) (t : Track α) : Prop where
  /-- The detection that the track starts from counts. -/
  hits : t.hits ≤ cycles
  misses : t.misses < cycles
  missStreak : t.missStreak < cycles

/-- The counts of a track have 32 bits. -/
structure CountsFit (t : Track α) : Prop where
  hits : t.hits < 2 ^ 32
  misses : t.misses < 2 ^ 32
  missStreak : t.missStreak < 2 ^ 32

theorem CountedIn.succ {cycles : ℕ} {t : Track α} (h : t.CountedIn cycles) :
    t.CountedIn (cycles + 1) :=
  ⟨h.hits.trans cycles.le_succ, h.misses.trans cycles.lt_succ_self,
    h.missStreak.trans cycles.lt_succ_self⟩

theorem CountedIn.fit {cycles : ℕ} {t : Track α} (h : t.CountedIn cycles) (hfew : cycles < 2 ^ 32) :
    t.CountsFit :=
  ⟨h.hits.trans_lt hfew, h.misses.trans hfew, h.missStreak.trans hfew⟩

end Track

namespace Roster

/-! ### Identities -/

/-- The tracks are named by identities that have been given out, each one at most once. -/
def Named (r : Roster α) : Prop :=
  (r.tracks.map Track.id).Sublist ((List.range r.ids.used).map r.ids.stream.nth)

theorem Named.nodup {r : Roster α} (h : r.Named) : (r.tracks.map Track.id).Nodup :=
  (List.nodup_range.map fun _ _ => r.ids.stream.nth_inj).sublist h

/-! ### Who is paired -/

/-- The tracks that a pairing has detections for. -/
def paired (r : Roster α) (direct : IndexMap) : List (Fin r.tracks.length) :=
  (List.finRange r.tracks.length).filter fun i => direct.contains i.val

/-- The detections that no track has, in the order of the batch. -/
def free (b : Batch α) (reverse : IndexMap) : List (Fin b.objects.length) :=
  (List.finRange b.objects.length).filter fun j => !reverse.contains j.val

theorem mem_free (b : Batch α) (reverse : IndexMap) (j : Fin b.objects.length) :
    j ∈ free b reverse ↔ reverse.get? j.val = none := by
  simp [free, IndexMap.contains]

theorem nodup_free (b : Batch α) (reverse : IndexMap) : (free b reverse).Nodup :=
  (List.nodup_finRange _).filter _

theorem zipIdx_eq_finRange {β : Type} (l : List β) :
    l.zipIdx = (List.finRange l.length).map fun j => (l[j], j.val) := by
  refine List.ext_getElem (by simp) fun i h h' => ?_
  simp

theorem unmatched_eq (b : Batch α) (reverse : IndexMap) :
    unmatched b reverse = (free b reverse).map fun j => b.objects[j] := by
  rw [unmatched, zipIdx_eq_finRange, List.filterMap_map, free, ← List.filterMap_eq_map,
    List.filterMap_filter]
  refine List.filterMap_congr fun j _ => ?_
  cases h : reverse.contains j.val <;> simp [h]

/-- A map that knows one side of a set has as many entries as the set, if no two members of it have
the same side. -/
theorem length_filter_contains {β : Type} {n : ℕ} {map : IndexMap} {s : Finset β} {f : β → Fin n}
    (hf : Set.InjOn f s)
    (hmap : ∀ i, (∃ j, map.get? i = some j) ↔ ∃ q ∈ s, (f q).val = i) :
    ((List.finRange n).filter fun i => map.contains i.val).length = s.card := by
  have himage : ((List.finRange n).filter fun i => map.contains i.val).toFinset =
      s.image f := by
    ext i
    simp [IndexMap.contains, Option.isSome_iff_exists, hmap, Fin.ext_iff]
  rw [← List.toFinset_card_of_nodup ((List.nodup_finRange n).filter _), himage,
    Finset.card_image_of_injOn hf]

/-- As many tracks are paired as detections. -/
theorem length_paired {r : Roster α} {b : Batch α} {p : Pairing}
    {s : Finset (Fin r.tracks.length × Fin b.objects.length)} (hs : IsMatching s) (hp : p.Shows s) :
    (r.paired p.direct).length =
      ((List.finRange b.objects.length).filter fun j => p.reverse.contains j.val).length := by
  have hrow : (r.paired p.direct).length = s.card := by
    refine length_filter_contains (f := Prod.fst) (fun q hq q' hq' h => hs.row q hq q' hq' h)
      fun i => ?_
    simp only [hp.direct]
    exact ⟨fun ⟨_, q, hq, hi, _⟩ => ⟨q, hq, hi⟩, fun ⟨q, hq, hi⟩ => ⟨_, q, hq, hi, rfl⟩⟩
  have hcol : ((List.finRange b.objects.length).filter fun j =>
      p.reverse.contains j.val).length = s.card := by
    refine length_filter_contains (f := Prod.snd) (fun q hq q' hq' h => hs.col q hq q' hq' h)
      fun j => ?_
    simp only [hp.reverse]
    exact ⟨fun ⟨_, q, hq, _, hj⟩ => ⟨q, hq, hj⟩, fun ⟨q, hq, hj⟩ => ⟨_, q, hq, rfl, hj⟩⟩
  rw [hrow, hcol]

end Roster

variable [Scalar α]

/-! ### One track -/

namespace Track

/-- The track carried on to a time. One that cannot be stays as it is. -/
def carried (t : Track α) (now : Time α) : Track α := (t.predict? now).getD t

/-- Carrying a track on changes nothing but its model. -/
theorem carried_eq (t : Track α) (now : Time α) :
    t.carried now = { t with model := (t.carried now).model } := by
  rw [carried, predict?]
  cases t.model.predict? now <;> rfl

@[simp] theorem carried_id (t : Track α) (now : Time α) : (t.carried now).id = t.id := by
  rw [carried_eq]

@[simp] theorem carried_hits (t : Track α) (now : Time α) : (t.carried now).hits = t.hits := by
  rw [carried_eq]

@[simp] theorem carried_misses (t : Track α) (now : Time α) :
    (t.carried now).misses = t.misses := by
  rw [carried_eq]

@[simp] theorem carried_lastMeasured (t : Track α) (now : Time α) :
    (t.carried now).lastMeasured = t.lastMeasured := by
  rw [carried_eq]

@[simp] theorem carried_missStreak (t : Track α) (now : Time α) :
    (t.carried now).missStreak = t.missStreak := by
  rw [carried_eq]

/-- A track that has taken a detection. -/
structure Hit (t t' : Track α) (now : Time α) : Prop where
  id : t'.id = t.id
  hits : t'.hits = t.hits + 1
  misses : t'.misses = t.misses
  lastMeasured : t'.lastMeasured = now

/-- A track that has missed a batch. -/
structure Missed (t t' : Track α) : Prop where
  id : t'.id = t.id
  hits : t'.hits = t.hits
  misses : t'.misses = t.misses + 1
  lastMeasured : t'.lastMeasured = t.lastMeasured

theorem measure_hit (t : Track α) (d : Detection α) (now : Time α) (ego : Isometry α) :
    t.Hit ((t.carried now).measure d now ego).1 now := by
  constructor <;> simp [measure]

theorem miss_missed (t : Track α) (now : Time α) : t.Missed (t.carried now).miss := by
  constructor <;> simp [miss]

end Track

namespace Roster

/-! ### All tracks -/

/-- The track that a detection starts as the one after `k` others. -/
def started (r : Roster α) (now : Time α) (k : ℕ) (d : Detection α) : Track α :=
  .spawn (r.ids.stream.nth (r.ids.used + k)) now d (r.kinds.kind d.label)

theorem started_ids (r : Roster α) (now : Time α) (ds : List (Detection α)) :
    (ds.mapIdx (r.started now)).map Track.id =
      (List.range' r.ids.used ds.length).map r.ids.stream.nth := by
  refine List.ext_getElem (by simp) fun i h h' => ?_
  simp [started, Track.spawn]

theorem foldl_start (now : Time α) (r : Roster α) (ds : List (Detection α)) :
    ds.foldl (start now) r =
      { r with
        tracks := r.tracks ++ ds.mapIdx (r.started now)
        ids := ⟨r.ids.stream, r.ids.used + ds.length⟩ } := by
  induction ds using List.reverseRecOn with
  | nil => simp
  | append_singleton ds d ih =>
    rw [List.foldl_append, List.foldl_cons, List.foldl_nil, ih]
    simp [start, IdSupply.fresh, started, List.mapIdx_concat, Nat.add_assoc]

/-- The track of index `i` after a batch. -/
def followed (b : Batch α) (ego : Isometry α) (direct : IndexMap) (i : ℕ) (t : Track α) : Track α :=
  updateTrack b ego (direct.get? i) (t.carried b.stamp)

/-- **The old tracks come first**, in their order, and then the new ones in the order of their
detections. -/
theorem absorb_eq (r : Roster α) (b : Batch α) (ego : Isometry α) (p : Pairing) :
    r.absorb b ego p =
      { r with
        tracks := r.tracks.mapIdx (followed b ego p.direct) ++
          ((free b p.reverse).map fun j => b.objects[j]).mapIdx (r.started b.stamp)
        ids := ⟨r.ids.stream, r.ids.used + (free b p.reverse).length⟩ } := by
  rw [absorb, spawn, foldl_start, unmatched_eq]
  -- carrying on and updating are two passes over the tracks, and one of `followed`
  simp only [update, predict, List.length_map]
  congr 2
  refine List.ext_getElem (by simp) fun i h h' => ?_
  simp [followed, Track.carried]

theorem followed_of_get? (b : Batch α) (ego : Isometry α) {direct : IndexMap} {i : ℕ}
    {j : Fin b.objects.length} (h : direct.get? i = some j.val) (t : Track α) :
    followed b ego direct i t = ((t.carried b.stamp).measure b.objects[j] b.stamp ego).1 := by
  simp [followed, h, updateTrack]

theorem Named.prune {r : Roster α} (h : r.Named) (now : Time α) : (r.prune now).Named :=
  ((r.prune_sublist now).map Track.id).trans h

theorem followed_id (b : Batch α) (ego : Isometry α) (direct : IndexMap) (i : ℕ) (t : Track α) :
    (followed b ego direct i t).id = t.id := by
  unfold followed updateTrack
  split
  · exact (t.measure_hit _ b.stamp ego).id
  · exact (t.miss_missed b.stamp).id

theorem Named.absorb {r : Roster α} (h : r.Named) (b : Batch α) (ego : Isometry α) (p : Pairing) :
    (r.absorb b ego p).Named := by
  have hold : (r.tracks.mapIdx (followed b ego p.direct)).map Track.id = r.tracks.map Track.id := by
    refine List.ext_getElem (by simp) fun i h h' => ?_
    simp [followed_id]
  rw [absorb_eq, Named, List.map_append, hold, started_ids, List.length_map, List.range_add,
    List.map_append]
  refine h.append ?_
  rw [List.range'_eq_map_range]

/-- A track after a batch: one from before, or one that has been started. -/
theorem mem_absorb {r : Roster α} {b : Batch α} {ego : Isometry α} {p : Pairing} {t' : Track α}
    (h : t' ∈ (r.absorb b ego p).tracks) :
    (∃ t ∈ r.tracks, ∃ i, t' = followed b ego p.direct i t) ∨
      ∃ k d, t' = r.started b.stamp k d := by
  rw [absorb_eq] at h
  rcases List.mem_append.1 h with h | h
  · obtain ⟨i, hi, rfl⟩ := List.mem_mapIdx.1 h
    exact .inl ⟨_, List.getElem_mem hi, i, rfl⟩
  · obtain ⟨k, hk, rfl⟩ := List.mem_mapIdx.1 h
    exact .inr ⟨k, _, rfl⟩

/-! ### One more batch -/

theorem countedIn_followed {t : Track α} {cycles : ℕ} (h : t.CountedIn cycles) (b : Batch α)
    (ego : Isometry α) (direct : IndexMap) (i : ℕ) :
    (followed b ego direct i t).CountedIn (cycles + 1) := by
  obtain ⟨hhits, hmisses, hstreak⟩ := h
  unfold followed updateTrack
  split
  · constructor <;> simp [Track.measure] <;> omega
  · constructor <;> simp [Track.miss] <;> omega

theorem countedIn_started (r : Roster α) (now : Time α) (k : ℕ) (d : Detection α) (cycles : ℕ) :
    (r.started now k d).CountedIn (cycles + 1) :=
  ⟨Nat.succ_le_succ (Nat.zero_le cycles), Nat.succ_pos cycles, Nat.succ_pos cycles⟩

/-- **A batch raises every count by one at most.** -/
theorem countedIn_absorb {r : Roster α} {cycles : ℕ} (h : ∀ t ∈ r.tracks, t.CountedIn cycles)
    (b : Batch α) (ego : Isometry α) (p : Pairing) :
    ∀ t ∈ (r.absorb b ego p).tracks, t.CountedIn (cycles + 1) := by
  intro t' ht'
  rcases mem_absorb ht' with ⟨t, ht, i, rfl⟩ | ⟨k, d, rfl⟩
  · exact countedIn_followed (h t ht) b ego p.direct i
  · exact r.countedIn_started b.stamp k d cycles

/-! ### The books -/

/-- The books of a batch, from the tracks `r` before to the tracks `r'` after it. -/
structure Ledger (r : Roster α) (b : Batch α) (ego : Isometry α) (p : Pairing) (r' : Roster α) :
    Prop where
  /-- The two maps of the pairing are inverse to each other, and they know nothing else. -/
  inverse : ∀ i j, p.direct.get? i = some j ↔ p.reverse.get? j = some i
  inside : ∀ i j, p.direct.get? i = some j → i < r.tracks.length ∧ j < b.objects.length
  /-- The old tracks are followed by those that are started, and by nothing else. -/
  length : r'.tracks.length = r.tracks.length + (free b p.reverse).length
  /-- A track that is paired takes this one detection, at the time of the batch. -/
  hit : ∀ (i : Fin r.tracks.length) (j : Fin b.objects.length),
    p.direct.get? i.val = some j.val → ∃ t', r'.tracks[i.val]? = some t' ∧
      t' = ((r.tracks[i].carried b.stamp).measure b.objects[j] b.stamp ego).1 ∧
      r.tracks[i].Hit t' b.stamp
  /-- Any other one misses the batch. -/
  missed : ∀ i : Fin r.tracks.length, p.direct.get? i.val = none →
    ∃ t', r'.tracks[i.val]? = some t' ∧ t' = (r.tracks[i].carried b.stamp).miss ∧
      r.tracks[i].Missed t'
  /-- The new tracks are in the order of their detections, under names of their own. -/
  started : ∀ (k : ℕ) (j : Fin b.objects.length), (free b p.reverse)[k]? = some j →
    r'.tracks[r.tracks.length + k]? = some (r.started b.stamp k b.objects[j])
  order : (free b p.reverse).Pairwise (· < ·)
  /-- A detection goes to one track or starts one, but not both. -/
  once : ∀ j : Fin b.objects.length,
    (∃! i : Fin r.tracks.length, p.direct.get? i.val = some j.val) ∧ j ∉ free b p.reverse ∨
      (∀ i : ℕ, p.direct.get? i ≠ some j.val) ∧ (free b p.reverse).count j = 1
  count : (r.paired p.direct).length + (free b p.reverse).length = b.objects.length

variable {r : Roster α} {b : Batch α} {p : Pairing}
  {s : Finset (Fin r.tracks.length × Fin b.objects.length)}

/-- **Every detection is used exactly once**, if the pairing is that of a matching. -/
theorem absorb_ledger (hs : IsMatching s) (hp : p.Shows s) (ego : Isometry α) :
    Ledger r b ego p (r.absorb b ego p) where
  inverse i j := by rw [hp.direct, hp.reverse]
  inside i j h := by
    obtain ⟨q, -, rfl, rfl⟩ := (hp.direct i j).1 h
    exact ⟨q.1.isLt, q.2.isLt⟩
  length := by simp [absorb_eq]
  hit i j h := by
    refine ⟨_, ?_, rfl, r.tracks[i].measure_hit b.objects[j] b.stamp ego⟩
    rw [absorb_eq, List.getElem?_append_left (by simp), List.getElem?_mapIdx]
    simp [followed_of_get? b ego h]
  missed i h := by
    refine ⟨_, ?_, rfl, r.tracks[i].miss_missed b.stamp⟩
    rw [absorb_eq, List.getElem?_append_left (by simp), List.getElem?_mapIdx]
    simp [followed, h, updateTrack]
  started k j h := by
    rw [absorb_eq, List.getElem?_append_right (by simp)]
    simp [h]
  order := (List.pairwise_lt_finRange _).filter _
  once j := by
    cases h : p.reverse.get? j.val with
    | none =>
      refine .inr ⟨fun i hi => ?_, ?_⟩
      · rw [hp.direct, ← hp.reverse, h] at hi
        cases hi
      · exact List.count_eq_one_of_mem (nodup_free b _) ((mem_free b _ j).2 h)
    | some i =>
      have hi := h
      rw [hp.reverse, ← hp.direct] at hi
      obtain ⟨q, -, hqi, -⟩ := (hp.direct i j.val).1 hi
      subst hqi
      refine .inl ⟨⟨q.1, hi, fun i' hi' => ?_⟩, fun hfree => ?_⟩
      · dsimp only at hi'
        rw [hp.direct, ← hp.reverse, h] at hi'
        exact Fin.ext (Option.some.inj hi').symm
      · rw [mem_free, h] at hfree
        cases hfree
  count := by
    rw [length_paired hs hp, free,
      ← List.length_eq_length_filter_add fun j : Fin b.objects.length => p.reverse.contains j.val]
    simp

end Roster

end TrackFusion
