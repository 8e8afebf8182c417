import TrackFusion.Proofs.Roster.Suppression

/-!
# Whom a track yields to

Tracks are compared two by two, in their order, and the outcome of a comparison depends on what
earlier ones have left. But there is one ranking that every comparison respects, so that a track
only goes because of one that ranks higher.

* `RosterSettings.survivors_places`: whoever does not survive has yielded to another track.
* `RosterSettings.filter_known_survivors`: tracks of unknown class make no difference to the others.
* `Roster.overlapGraph`, `Roster.rank`: which tracks overlap, and which one of two should stay.
* `Roster.suppress_wellFounded`: the highest track of every cluster is left.
-/

namespace TrackFusion

namespace RosterSettings

variable {α : Type} [Scalar α] (s : RosterSettings α)

section places

variable {ι : Type} (f : ι → Sighting α)

/-- Who is not left behind a track has yielded to it. The track is left unless it yields: to one
that is still there, and behind which nobody has been looked at. -/
theorem confront_places [LT ι] (a : Sighting α) {ps : List ι} (hps : ps.Pairwise (· < ·)) :
    ∃ ks : List ι, ks.Sublist ps ∧ (s.confront a (ps.map f)).2 = ks.map f ∧
      (∀ i ∈ ps, i ∉ ks → s.collide a (f i) = true ∧ a.yields (f i) = false) ∧
      ((s.confront a (ps.map f)).1 = false →
        ∃ k ∈ ks, s.collide a (f k) = true ∧ a.yields (f k) = true ∧
          ∀ i ∈ ps, i ∉ ks → i < k) := by
  induction ps with
  | nil => exact ⟨[], List.Sublist.refl _, rfl, by simp, by simp [confront]⟩
  | cons i ps ih =>
    obtain ⟨hi, hps⟩ := List.pairwise_cons.1 hps
    obtain ⟨ks, hsub, hsame, hout, hyield⟩ := ih hps
    rw [List.map_cons, confront]
    by_cases hc : s.collide a (f i) = true
    · by_cases hy : a.yields (f i) = true
      · -- the track yields here, and nobody behind it is looked at
        rw [if_pos hc, if_pos hy]
        exact ⟨i :: ps, List.Sublist.refl _, rfl, fun j hj hj' => absurd hj hj',
          fun _ => ⟨i, List.mem_cons_self, hc, hy, fun j hj hj' => absurd hj hj'⟩⟩
      · rw [if_pos hc, if_neg hy]
        refine ⟨ks, hsub.cons i, hsame, fun j hj hj' => ?_, fun h => ?_⟩
        · rcases List.mem_cons.1 hj with rfl | hj
          · exact ⟨hc, Bool.eq_false_iff.2 hy⟩
          · exact hout j hj hj'
        · obtain ⟨k, hk, hck, hyk, hbefore⟩ := hyield h
          refine ⟨k, hk, hck, hyk, fun j hj hj' => ?_⟩
          rcases List.mem_cons.1 hj with rfl | hj
          · exact hi k (hsub.subset hk)
          · exact hbefore j hj hj'
    · rw [if_neg hc]
      refine ⟨i :: ks, hsub.cons_cons i, by simp [hsame], fun j hj hj' => ?_, fun h => ?_⟩
      · rw [List.mem_cons, not_or] at hj'
        exact hout j ((List.mem_cons.1 hj).resolve_left hj'.1) hj'.2
      · obtain ⟨k, hk, hck, hyk, hbefore⟩ := hyield h
        refine ⟨k, List.mem_cons_of_mem _ hk, hck, hyk, fun j hj hj' => ?_⟩
        rw [List.mem_cons, not_or] at hj'
        exact hbefore j ((List.mem_cons.1 hj).resolve_left hj'.1) hj'.2

/-- Of two tracks that collide, the one at `j` stays and the one at `i` yields. -/
def Ousts [LT ι] (j i : ι) : Prop :=
  i < j ∧ s.collide (f i) (f j) = true ∧ (f i).yields (f j) = true ∨
    j < i ∧ s.collide (f j) (f i) = true ∧ (f j).yields (f i) = false

/-- **Nobody goes without having yielded.** Whoever a track has yielded to is left, unless that one
has yielded in its turn to another one, behind both of them. -/
theorem survivors_places [Preorder ι] {ps : List ι} (hps : ps.Pairwise (· < ·)) :
    ∃ ks : List ι, ks.Sublist ps ∧ s.survivors (ps.map f) = ks.map f ∧
      ∀ i ∈ ps, i ∉ ks → ∃ j ∈ ps, s.Ousts f j i ∧ (j ∈ ks ∨ ∃ k ∈ ps, i < k ∧ s.Ousts f k j) := by
  obtain ⟨l, hl⟩ : ∃ l, ps.map f = l := ⟨_, rfl⟩
  rw [hl]
  revert ps
  induction l using survivors.induct (s := s) with
  | case1 =>
    intro ps hps hl
    obtain rfl := List.map_eq_nil_iff.1 hl
    exact ⟨[], List.Sublist.refl _, by simp [survivors], by simp⟩
  | @case2 a l r hr ih =>
    intro ps hps hl
    obtain ⟨i, qs, rfl, rfl, rfl⟩ := List.map_eq_cons_iff.1 hl
    obtain ⟨hi, hqs⟩ := List.pairwise_cons.1 hps
    obtain ⟨rs, hrs, hsame, hout, -⟩ := s.confront_places f (f i) hqs
    obtain ⟨ks, hks, hsame', hout'⟩ := ih (hqs.sublist hrs) hsame.symm
    refine ⟨i :: ks, (hks.trans hrs).cons_cons i, ?_, fun j hj hj' => ?_⟩
    · rw [survivors, if_pos hr, hsame', List.map_cons]
    · rw [List.mem_cons, not_or] at hj'
      have hjq := (List.mem_cons.1 hj).resolve_left hj'.1
      by_cases hjr : j ∈ rs
      · obtain ⟨k, hk, hkj, hfate⟩ := hout' j hjr hj'.2
        refine ⟨k, List.mem_cons_of_mem _ (hrs.subset hk), hkj, ?_⟩
        rcases hfate with hkeep | ⟨m, hm, hjm, hmk⟩
        · exact .inl (List.mem_cons_of_mem _ hkeep)
        · exact .inr ⟨m, List.mem_cons_of_mem _ (hrs.subset hm), hjm, hmk⟩
      · exact ⟨i, List.mem_cons_self, .inr ⟨hi j hjq, hout j hjq hjr⟩, .inl List.mem_cons_self⟩
  | @case3 a l r hr ih =>
    intro ps hps hl
    obtain ⟨i, qs, rfl, rfl, rfl⟩ := List.map_eq_cons_iff.1 hl
    obtain ⟨hi, hqs⟩ := List.pairwise_cons.1 hps
    obtain ⟨rs, hrs, hsame, hout, hyield⟩ := s.confront_places f (f i) hqs
    obtain ⟨ks, hks, hsame', hout'⟩ := ih (hqs.sublist hrs) hsame.symm
    obtain ⟨k, hk, hck, hyk, hbefore⟩ := hyield (Bool.eq_false_iff.2 hr)
    have hik : s.Ousts f k i := .inl ⟨hi k (hrs.subset hk), hck, hyk⟩
    refine ⟨ks, (hks.trans hrs).cons i, ?_, fun j hj hj' => ?_⟩
    · rw [survivors, if_neg hr, hsame']
    · rcases List.mem_cons.1 hj with rfl | hjq
      · refine ⟨k, List.mem_cons_of_mem _ (hrs.subset hk), hik, ?_⟩
        by_cases hkk : k ∈ ks
        · exact .inl hkk
        · obtain ⟨m, hm, hmk, -⟩ := hout' k hk hkk
          exact .inr ⟨m, List.mem_cons_of_mem _ (hrs.subset hm), hi m (hrs.subset hm), hmk⟩
      · by_cases hjr : j ∈ rs
        · obtain ⟨m, hm, hmj, hfate⟩ := hout' j hjr hj'
          refine ⟨m, List.mem_cons_of_mem _ (hrs.subset hm), hmj, ?_⟩
          rcases hfate with hkeep | ⟨m', hm', hjm, hmm⟩
          · exact .inl hkeep
          · exact .inr ⟨m', List.mem_cons_of_mem _ (hrs.subset hm'), hjm, hmm⟩
        · -- the track in front has made this one yield before it yielded itself
          exact ⟨i, List.mem_cons_self, .inr ⟨hi j hjq, hout j hjq hjr⟩,
            .inr ⟨k, List.mem_cons_of_mem _ (hrs.subset hk), hbefore j hjq hjr, hik⟩⟩

end places

/-! ### Tracks of a known class -/

/-- A track of a known class only yields to those of a known class. -/
theorem confront_filter_known {a : Sighting α} (ha : a.isUnknown = false)
    (l : List (Sighting α)) :
    s.confront a (l.filter fun b => !b.isUnknown) =
      ((s.confront a l).1, (s.confront a l).2.filter fun b => !b.isUnknown) := by
  induction l with
  | nil => rfl
  | cons b l ih =>
    cases hb : b.isUnknown with
    | false =>
      rw [List.filter_cons_of_pos (by simp [hb]), confront, confront, ih]
      split
      · split
        · simp [hb]
        · rfl
      · simp [hb]
    | true =>
      have hy : a.yields b = false := by simp [Sighting.yields, ha, hb]
      rw [List.filter_cons_of_neg (by simp [hb]), confront, ih]
      by_cases hc : s.collide a b = true <;> simp [hc, hy, hb]

/-- A track of unknown class makes none of a known class yield. -/
theorem filter_known_confront {a : Sighting α} (ha : a.isUnknown = true)
    (l : List (Sighting α)) :
    (s.confront a l).2.filter (fun b => !b.isUnknown) = l.filter fun b => !b.isUnknown := by
  induction l with
  | nil => rfl
  | cons b l ih =>
    rw [confront]
    by_cases hc : s.collide a b = true
    · by_cases hy : a.yields b = true
      · rw [if_pos hc, if_pos hy]
      · have hb : b.isUnknown = true := by
          by_contra hb
          exact hy (by simp [Sighting.yields, ha, hb])
        rw [if_pos hc, if_neg hy, ih, List.filter_cons_of_neg (by simp [hb])]
    · rw [if_neg hc]
      simp only [List.filter_cons, ih]

/-- **Tracks of a known class survive as if there were no others.** -/
theorem filter_known_survivors (l : List (Sighting α)) :
    (s.survivors l).filter (fun b => !b.isUnknown) =
      s.survivors (l.filter fun b => !b.isUnknown) := by
  induction l using survivors.induct (s := s) with
  | case1 => simp [survivors]
  | case2 a l r hr ih =>
    rw [survivors, if_pos hr]
    cases ha : a.isUnknown with
    | false =>
      have hsame := s.confront_filter_known ha l
      rw [List.filter_cons_of_pos (by simp [ha]), List.filter_cons_of_pos (by simp [ha]), survivors,
        hsame, if_pos hr, ih]
    | true =>
      rw [List.filter_cons_of_neg (by simp [ha]), List.filter_cons_of_neg (by simp [ha]), ih,
        s.filter_known_confront ha l]
  | case3 a l r hr ih =>
    rw [survivors, if_neg hr]
    cases ha : a.isUnknown with
    | false =>
      have hsame := s.confront_filter_known ha l
      rw [List.filter_cons_of_pos (by simp [ha]), survivors, hsame, if_neg hr, ih]
    | true =>
      rw [List.filter_cons_of_neg (by simp [ha]), ih, s.filter_known_confront ha l]

end RosterSettings

namespace Roster

variable {α : Type} [Scalar α]

/-- Two tracks, the first one started before the other, overlap too much as they are published, and
are not too far apart to be merged. -/
def Overlaps (s : RosterSettings α) (now : Time α) (t u : Track α) : Prop :=
  ∃ o p, t.exportAt? now = some o ∧ u.exportAt? now = some p ∧
    ¬ s.mergeDistance < o.kinematics.pose.distance p.kinematics.pose ∧
    (if t.label = .unknown ∨ u.label = .unknown then s.minOverlapUnknown else s.minOverlap) <
      overlap o.kinematics.pose o.shape p.kinematics.pose p.shape RosterSettings.minUnionArea

theorem collide_eq_true_iff (s : RosterSettings α) (now : Time α) (t u : Track α) :
    s.collide (.ofTrack now t) (.ofTrack now u) = true ↔ Overlaps s now t u := by
  unfold RosterSettings.collide Overlaps
  cases ht : t.exportAt? now <;> cases hu : u.exportAt? now <;>
    simp [Sighting.ofTrack, Sighting.isUnknown, RosterSettings.overlapBound, ht, hu]

variable (r : Roster α) (now : Time α)

/-- The tracks by their places in the roster, with an edge between any two that overlap. -/
def overlapGraph : SimpleGraph (Fin r.tracks.length) :=
  .fromRel fun i j => i < j ∧ Overlaps r.settings now r.tracks[i] r.tracks[j]

/-- The rank of a track, the least one being the highest: those of a known class come before those
of unknown class, then those with more detections, then those that were started earlier. -/
def rank (i : Fin r.tracks.length) : Bool ×ₗ ℕᵒᵈ ×ₗ Fin r.tracks.length :=
  toLex (decide (r.tracks[i].label = .unknown), toLex (OrderDual.toDual r.tracks[i].hits, i))

theorem rank_lt_iff {i j : Fin r.tracks.length} :
    r.rank j < r.rank i ↔
      r.tracks[j].label ≠ .unknown ∧ r.tracks[i].label = .unknown ∨
      (r.tracks[j].label = .unknown ↔ r.tracks[i].label = .unknown) ∧
        (r.tracks[i].hits < r.tracks[j].hits ∨ r.tracks[j].hits = r.tracks[i].hits ∧ j < i) := by
  unfold rank
  simp only [Prod.Lex.toLex_lt_toLex, OrderDual.toDual_lt_toDual, Bool.lt_iff,
    decide_eq_false_iff_not, decide_eq_true_iff, decide_eq_decide, EmbeddingLike.apply_eq_iff_eq]

theorem rank_injective : Function.Injective r.rank := by
  intro i j h
  have h' := congrArg (fun k => (ofLex (ofLex k).2).2) h
  exact h'

/-- A track yields to one behind it just if that one ranks higher. -/
theorem yields_ofTrack_iff {i j : Fin r.tracks.length} (h : i < j) :
    (Sighting.ofTrack now r.tracks[i]).yields (.ofTrack now r.tracks[j]) = true ↔
      r.rank j < r.rank i := by
  have hnot : ¬ j < i := not_lt.2 h.le
  rw [rank_lt_iff]
  generalize r.tracks[i] = t
  generalize r.tracks[j] = u
  unfold Sighting.yields Sighting.isUnknown Sighting.ofTrack
  by_cases ht : t.label = .unknown <;> by_cases hu : u.label = .unknown <;> simp [ht, hu, hnot]

/-- A track loses to another one that it overlaps and that ranks higher. -/
def LosesTo (i j : Fin r.tracks.length) : Prop :=
  (r.overlapGraph now).Adj i j ∧ r.rank j < r.rank i

/-- A track only yields to one that it loses to. -/
theorem losesTo_of_ousts {i j : Fin r.tracks.length}
    (h : r.settings.Ousts (fun k : Fin r.tracks.length => .ofTrack now r.tracks[k]) j i) :
    r.LosesTo now i j := by
  rw [LosesTo, overlapGraph, SimpleGraph.fromRel_adj]
  rcases h with ⟨hlt, hover, hyield⟩ | ⟨hlt, hover, hyield⟩
  · have hover' := (collide_eq_true_iff _ _ _ _).1 hover
    exact ⟨⟨hlt.ne, .inl ⟨hlt, hover'⟩⟩, (r.yields_ofTrack_iff now hlt).1 hyield⟩
  · have hover' := (collide_eq_true_iff _ _ _ _).1 hover
    have hle : r.rank j ≤ r.rank i := by
      rw [← not_lt, ← r.yields_ofTrack_iff now hlt, hyield]
      exact Bool.false_ne_true
    exact ⟨⟨hlt.ne', .inr ⟨hlt, hover'⟩⟩, hle.lt_of_ne (r.rank_injective.ne hlt.ne)⟩

/-- The tracks that are left, by their places: whoever is not left loses to a track that is, or that
loses in its turn to one behind both of them. -/
theorem suppress_places :
    ∃ kept : List (Fin r.tracks.length), kept.Sublist (List.finRange _) ∧
      (r.suppress now).tracks = kept.map (fun i => r.tracks[i]) ∧
      ∀ i, i ∉ kept → ∃ j, r.LosesTo now i j ∧ (j ∈ kept ∨ ∃ k, i < k ∧ r.LosesTo now j k) := by
  obtain ⟨kept, hsub, hsame, hout⟩ := r.settings.survivors_places
    (fun k : Fin r.tracks.length => .ofTrack now r.tracks[k]) (List.pairwise_lt_finRange _)
  have htracks : r.tracks.map (Sighting.ofTrack now) =
      (List.finRange r.tracks.length).map fun k => .ofTrack now r.tracks[k] := by
    conv_lhs => rw [← List.map_getElem_finRange r.tracks, List.map_map]
    rfl
  refine ⟨kept, hsub, ?_, fun i hi => ?_⟩
  · rw [suppress, htracks, hsame, List.map_map]
    rfl
  · obtain ⟨j, -, hj, hfate⟩ := hout i (List.mem_finRange i) hi
    refine ⟨j, r.losesTo_of_ousts now hj, ?_⟩
    rcases hfate with hkeep | ⟨k, -, hik, hk⟩
    · exact .inl hkeep
    · exact .inr ⟨k, hik, r.losesTo_of_ousts now hk⟩

/-- Tracks of a known class are left as if there were no others. -/
theorem suppress_filter_known :
    (r.suppress now).tracks.filter (fun t => t.label ≠ Label.unknown) =
      ({ r with
        tracks := r.tracks.filter fun t => t.label ≠ Label.unknown }.suppress now).tracks := by
  have hknown : (fun t : Track α => decide (t.label ≠ .unknown)) =
      (fun a : Sighting α => !a.isUnknown) ∘ Sighting.ofTrack now := by
    funext t
    rw [decide_not]
    rfl
  have hcomp : (fun t : Track α => decide (t.label ≠ .unknown)) ∘ Sighting.track =
      fun a : Sighting α => !a.isUnknown := by
    funext a
    exact decide_not
  simp only [suppress]
  rw [List.filter_map, hcomp, RosterSettings.filter_known_survivors, List.filter_map, ← hknown]

/-- **Suppression is well founded.** Every track that goes overlaps one that ranks higher. So the
highest one of every cluster of overlapping tracks is left, tracks of a known class are left or not
as if there were none of unknown class, and whoever overlaps nobody or publishes nothing is left. -/
theorem suppress_wellFounded (r : Roster α) (now : Time α) :
    (∃ kept : List (Fin r.tracks.length), kept.Sublist (List.finRange _) ∧
      (r.suppress now).tracks = kept.map (fun i => r.tracks[i]) ∧
      (∀ i, i ∉ kept → ∃ j, (r.overlapGraph now).Adj i j ∧ r.rank j < r.rank i) ∧
      (∀ c : (r.overlapGraph now).ConnectedComponent, ∃ i ∈ c.supp, i ∈ kept ∧
        ∀ j ∈ c.supp, j ≠ i → r.rank i < r.rank j) ∧
      (∀ i, i ∉ kept → r.tracks[i].label ≠ .unknown →
        ∃ j, (r.overlapGraph now).Adj i j ∧ r.tracks[j].label ≠ .unknown ∧ r.rank j < r.rank i) ∧
      (∀ i, (∀ j, ¬ (r.overlapGraph now).Adj i j) → i ∈ kept) ∧
      ∀ i : Fin r.tracks.length, r.tracks[i].exportAt? now = none → i ∈ kept) ∧
    (r.suppress now).tracks.filter (fun t => t.label ≠ Label.unknown) =
      ({ r with
        tracks := r.tracks.filter fun t => t.label ≠ Label.unknown }.suppress now).tracks := by
  obtain ⟨kept, hsub, hsame, hout⟩ := r.suppress_places now
  replace hout : ∀ i, i ∉ kept → ∃ j, (r.overlapGraph now).Adj i j ∧ r.rank j < r.rank i :=
    fun i hi => (hout i hi).imp fun _ h => h.1
  refine ⟨⟨kept, hsub, hsame, hout, fun c => ?_, fun i hi hknown => ?_, fun i hi => ?_,
    fun i hi => ?_⟩, r.suppress_filter_known now⟩
  · obtain ⟨i, hic, hmin⟩ := Set.exists_min_image c.supp r.rank (Set.toFinite _) c.nonempty_supp
    refine ⟨i, hic, ?_, fun j hj hji => (hmin j hj).lt_of_ne fun h => hji (r.rank_injective h).symm⟩
    by_contra hi
    obtain ⟨j, hadj, hlt⟩ := hout i hi
    exact absurd (hmin j (c.mem_supp_of_adj_mem_supp hic hadj)) (not_le.2 hlt)
  · obtain ⟨j, hadj, hlt⟩ := hout i hi
    refine ⟨j, hadj, fun hj => ?_, hlt⟩
    rcases r.rank_lt_iff.1 hlt with ⟨hj', -⟩ | ⟨hsame, -⟩
    · exact hj' hj
    · exact hknown (hsame.1 hj)
  · by_contra hnot
    obtain ⟨j, hadj, -⟩ := hout i hnot
    exact hi j hadj
  · by_contra hnot
    obtain ⟨j, hadj, -⟩ := hout i hnot
    rw [overlapGraph, SimpleGraph.fromRel_adj] at hadj
    rcases hadj.2 with ⟨-, o, p, ho, -⟩ | ⟨-, o, p, -, hp, -⟩
    · rw [hi] at ho
      cases ho
    · rw [hi] at hp
      cases hp

end Roster

end TrackFusion
