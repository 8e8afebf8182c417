import TrackFusion.Proofs.Input.Window

/-!
# Polling more often

Whoever asks for batches more often gets them earlier, and loses none of them. A release in between
takes out what is due and moves the beginning of later windows up, but not beyond its own end, and
what a later release gives after that end still waits.

* `filter_mergeSort`: sorting and picking out commute.
* `Intake.release_eq_filter`, `waiting_release`: a release picks from what waits, in sorted order.
* `Intake.release_between`: one more release in between.
* `Intake.polling_loses_nothing`: any number of them.
-/

namespace TrackFusion

section sorting

variable {ι : Type} {le : ι → ι → Bool}
  (trans : ∀ a b c, le a b = true → le b c = true → le a c = true)
  (total : ∀ a b, (le a b || le b a) = true)

include trans total

/-- Sorting puts the first element between those that are strictly before it and the others. -/
theorem mergeSort_cons_eq (a : ι) (l : List ι) :
    ∃ l₁ l₂, l.mergeSort le = l₁ ++ l₂ ∧ (a :: l).mergeSort le = l₁ ++ a :: l₂ ∧
      l₁ = (l.mergeSort le).filter (fun b => !le a b) ∧ l₂ = (l.mergeSort le).filter (le a) := by
  obtain ⟨l₁, l₂, hcons, hsort, hbefore⟩ := List.mergeSort_cons trans total a l
  have hsorted := List.pairwise_mergeSort trans total (a :: l)
  rw [hcons] at hsorted
  have hafter : ∀ b ∈ l₂, le a b = true :=
    (List.pairwise_cons.1 (List.pairwise_append.1 hsorted).2.1).1
  refine ⟨l₁, l₂, hsort, hcons, ?_, ?_⟩
  · rw [hsort, List.filter_append, List.filter_eq_self.2 hbefore,
      List.filter_eq_nil_iff.2 fun b hb => by simp [hafter b hb], List.append_nil]
  · rw [hsort, List.filter_append, List.filter_eq_self.2 hafter,
      List.filter_eq_nil_iff.2 fun b hb => by simpa using hbefore b hb, List.nil_append]

theorem filter_mergeSort (p : ι → Bool) (l : List ι) :
    (l.filter p).mergeSort le = (l.mergeSort le).filter p := by
  induction l with
  | nil => simp
  | cons a l ih =>
    obtain ⟨l₁, l₂, hsort, hcons, hl₁, hl₂⟩ := mergeSort_cons_eq trans total a l
    by_cases ha : p a = true
    · -- the parts around the element are the picked ones of the former parts
      obtain ⟨k₁, k₂, -, hcons', hk₁, hk₂⟩ := mergeSort_cons_eq trans total a (l.filter p)
      have hcomm (q : ι → Bool) : ((l.mergeSort le).filter p).filter q =
          ((l.mergeSort le).filter q).filter p := by
        rw [List.filter_filter, List.filter_filter]
        exact List.filter_congr fun b _ => Bool.and_comm _ _
      rw [ih, hcomm, ← hl₁] at hk₁
      rw [ih, hcomm, ← hl₂] at hk₂
      rw [List.filter_cons_of_pos ha, hcons', hcons, hk₁, hk₂, List.filter_append,
        List.filter_cons_of_pos ha]
    · rw [List.filter_cons_of_neg ha, ih, hsort, hcons, List.filter_append, List.filter_append,
        List.filter_cons_of_neg ha]

end sorting

/-- What comes first in a list, and then the rest. -/
theorem filter_append_filter_not {ι : Type} {p : ι → Bool} {l : List ι}
    (h : l.Pairwise fun a b => p b = true → p a = true) :
    l.filter p ++ l.filter (fun a => !p a) = l := by
  induction l with
  | nil => rfl
  | cons a l ih =>
    obtain ⟨ha, hl⟩ := List.pairwise_cons.1 h
    by_cases hp : p a = true
    · simpa [hp] using ih hl
    · -- nothing after the first element that does not belong to the front does
      have hnone : ∀ b ∈ l, ¬ p b = true := fun b hb hpb => hp (ha b hb hpb)
      have hrest : l.filter (fun a => !p a) = l :=
        List.filter_eq_self.2 fun b hb => by simpa using hnone b hb
      simp [hp, List.filter_eq_nil_iff.2 hnone, hrest]

namespace Intake

section scalar

variable {α : Type} [Scalar α] (m : Intake α)

/-- All batches that wait, by channel and arrival. -/
def waiting : List (Batch α) := m.streams.flatMap Stream.queue

theorem waiting_release (now : Time α) :
    (m.release now).2.waiting =
      m.waiting.filter (Stream.stays (m.window now).1 (m.window now).2) := by
  rw [waiting, List.flatMap_def, m.release_queues, waiting, List.flatMap_def, List.filter_flatten,
    List.map_map]
  rfl

/-- A release picks what is due from all that waits, in sorted order. -/
theorem release_eq_filter [OrderedScalar α] (now : Time α) :
    (m.release now).1.batches =
      (m.waiting.mergeSort precedes).filter (Stream.isDue (m.window now).1 (m.window now).2) := by
  rw [← filter_mergeSort precedes_trans precedes_total, m.release_batches, waiting,
    List.flatMap_def, List.flatMap_def, List.filter_flatten, List.map_map]
  rfl

end scalar

section exact

variable {α : Type} [ExactScalar α] (m : Intake α)

/-! ### Exact windows -/

theorem not_isStale_window (now : Time α) (b : Batch α) :
    Stream.isStale (m.window now).1 b = false ↔
      now.seconds - m.settings.acceptableLatency ≤ b.stamp.seconds ∧
        m.latest.seconds ≤ b.stamp.seconds := by
  have hlater : ∀ s t : Time α, (s.later t).seconds = max s.seconds t.seconds := by
    intro s t
    unfold Time.later
    split
    · rename_i h
      exact (max_eq_right (le_of_lt h)).symm
    · rename_i h
      exact (max_eq_left (not_lt.1 h)).symm
  have hstart : (m.window now).1.seconds =
      max (now.seconds - m.settings.acceptableLatency) m.latest.seconds := hlater _ _
  rw [Stream.isStale, decide_eq_false_iff_not, ← max_le_iff, ← hstart]
  exact not_lt (α := α)

theorem isDue_window (now : Time α) (b : Batch α) :
    Stream.isDue (m.window now).1 (m.window now).2 b = true ↔
      (now.seconds - m.settings.acceptableLatency ≤ b.stamp.seconds ∧
        m.latest.seconds ≤ b.stamp.seconds) ∧
      b.stamp.seconds ≤ now.seconds - m.settings.targetLatency := by
  rw [Stream.isDue, Bool.and_eq_true, Bool.not_eq_true', m.not_isStale_window, decide_eq_true_iff]
  rfl

theorem stays_window (now : Time α) (b : Batch α) :
    Stream.stays (m.window now).1 (m.window now).2 b = true ↔
      (now.seconds - m.settings.acceptableLatency ≤ b.stamp.seconds ∧
        m.latest.seconds ≤ b.stamp.seconds) ∧
      now.seconds - m.settings.targetLatency < b.stamp.seconds := by
  rw [Stream.stays, Bool.and_eq_true, Bool.not_eq_true', Bool.not_eq_true', m.not_isStale_window,
    ← Bool.not_eq_true, m.isDue_window]
  refine and_congr_right fun hnew => ?_
  rw [not_and, not_le]
  exact ⟨fun h => h hnew, fun h _ => h⟩

/-- The newest stamp after a release is not after the window, unless it is the former one. -/
theorem latest_release (now : Time α) :
    (m.release now).2.latest = m.latest ∨
      (m.release now).2.latest.seconds ≤ now.seconds - m.settings.targetLatency := by
  rcases List.eq_nil_or_concat' (m.release now).1.batches with h | ⟨l, c, h⟩
  · left
    rw [release_latest, h]
    rfl
  · right
    have hc : c ∈ (m.release now).1.batches := by simp [h]
    rw [m.latest_of_release now h]
    exact (m.release_window now (ExactScalar.isFinite_eq _) hc).2.2

/-! ### Releases in between -/

/-- Whether a batch is not older than acceptable. -/
def isFresh (now : Time α) (b : Batch α) : Bool :=
  decide (now - m.settings.acceptableLatency ≤ b.stamp)

theorem isFresh_iff (now : Time α) (b : Batch α) :
    m.isFresh now b = true ↔
      now.seconds - m.settings.acceptableLatency ≤ b.stamp.seconds := by
  rw [isFresh, decide_eq_true_iff]
  rfl

/-- **One more release in between.** What both of them release, except for what has become too old
for the later one, is what the later one alone releases. -/
theorem release_between {before now : Time α} (h : before ≤ now) :
    (m.release now).1.batches =
      ((m.release before).1.batches ++ ((m.release before).2.release now).1.batches).filter
        (m.isFresh now) := by
  have hle : before.seconds ≤ now.seconds := h
  have hset : (m.release before).2.settings = m.settings := rfl
  have hlatest := m.latest_release before
  -- what both would release is told apart by the end of the earlier window
  let early (b : Batch α) : Bool :=
    decide (b.stamp.seconds ≤ before.seconds - m.settings.targetLatency)
  have hfirst : (m.release now).1.batches.filter early =
      (m.release before).1.batches.filter (m.isFresh now) := by
    rw [m.release_eq_filter, m.release_eq_filter, List.filter_filter, List.filter_filter]
    refine List.filter_congr fun b _ => ?_
    rw [Bool.eq_iff_iff, Bool.and_eq_true, Bool.and_eq_true, m.isDue_window, m.isDue_window,
      m.isFresh_iff, decide_eq_true_iff]
    constructor
    · rintro ⟨hdue, ⟨hnew, hlast⟩, hold⟩
      exact ⟨hnew, ⟨by linarith, hlast⟩, hdue⟩
    · rintro ⟨hnew, ⟨-, hlast⟩, hdue⟩
      exact ⟨hdue, ⟨hnew, hlast⟩, by linarith⟩
  have hsecond : (m.release now).1.batches.filter (fun b => !early b) =
      ((m.release before).2.release now).1.batches.filter (m.isFresh now) := by
    rw [m.release_eq_filter, (m.release before).2.release_eq_filter, m.waiting_release,
      filter_mergeSort precedes_trans precedes_total, List.filter_filter, List.filter_filter,
      List.filter_filter]
    refine List.filter_congr fun b _ => ?_
    rw [Bool.eq_iff_iff, Bool.and_eq_true, Bool.and_eq_true, Bool.and_eq_true, m.isDue_window,
      m.stays_window, (m.release before).2.isDue_window, m.isFresh_iff, hset, Bool.not_eq_true',
      decide_eq_false_iff_not, not_le]
    constructor
    · rintro ⟨hlate, ⟨hnew, hlast⟩, hold⟩
      refine ⟨⟨hnew, ⟨hnew, ?_⟩, hold⟩, ⟨by linarith, hlast⟩, hlate⟩
      rcases hlatest with hsame | hearly
      · rw [hsame]
        exact hlast
      · linarith
    · rintro ⟨⟨hnew, -, hold⟩, ⟨-, hlast⟩, hlate⟩
      exact ⟨hlate, ⟨hnew, hlast⟩, hold⟩
  have hsorted : (m.release now).1.batches.Pairwise fun a b => early b = true → early a = true := by
    refine (m.release_sorted now).imp fun {a b} hab hb => ?_
    have hab' : a.stamp.seconds ≤ b.stamp.seconds := hab
    exact decide_eq_true (hab'.trans (of_decide_eq_true hb))
  rw [List.filter_append, ← hfirst, ← hsecond, filter_append_filter_not hsorted]

/-- The same with any number of releases in between. -/
theorem release_after_polls {nows : List (Time α)} {now : Time α} (h : ∀ t ∈ nows, t ≤ now) :
    (m.release now).1.batches =
      (m.released (nows.map .get ++ [.get now])).flatten.filter (m.isFresh now) := by
  induction nows generalizing m with
  | nil =>
    have hfresh : ∀ b ∈ (m.release now).1.batches, m.isFresh now b = true := fun b hb =>
      decide_eq_true (m.release_window now (ExactScalar.isFinite_eq _) hb).1
    simp [released, call, List.filter_eq_self.2 hfresh]
  | cons t nows ih =>
    obtain ⟨ht, hnows⟩ := List.forall_mem_cons.1 h
    have hrest := ih (m.release t).2 hnows
    have hfresh : (m.release t).2.isFresh now = m.isFresh now := rfl
    rw [m.release_between ht, List.filter_append, hrest, hfresh, List.filter_filter]
    simp [released, call]

/-- **Polling more often loses nothing.** Take any intake and ask it at some times, in whatever
order, before asking it at a time that is not earlier than any of them. All of these calls together
release what the last one would have released alone, each batch as often and in the same order; what
they release besides would have been too old for it. -/
theorem polling_loses_nothing (m : Intake α) (nows : List (Time α)) (now : Time α)
    (h : ∀ t ∈ nows, t ≤ now) :
    let once := (m.release now).1.batches
    let often := (m.released (nows.map .get ++ [.get now])).flatten
    once = often.filter (fun b => decide (now - m.settings.acceptableLatency ≤ b.stamp)) ∧
      once.Sublist often ∧
      ∀ b ∈ often, b ∉ once → b.stamp < now - m.settings.acceptableLatency := by
  intro once often
  have hsame : once = often.filter (m.isFresh now) := m.release_after_polls h
  refine ⟨hsame, hsame ▸ List.filter_sublist, fun b hb hnot => ?_⟩
  by_contra hlt
  have hfresh : m.isFresh now b = true := decide_eq_true (not_lt (α := α).1 hlt)
  exact hnot (hsame ▸ List.mem_filter.2 ⟨hb, hfresh⟩)

/-- A channel on which batches with some stamps wait. -/
def ofStamps (stamps : List ℚ) : Intake ℚ where
  streams := [{ Stream.ofSettings 0 .usual with
    queue := stamps.map fun t => ⟨⟨t⟩, "map", 0, []⟩ }]
  settings := .usual
  latest := ⟨0⟩

/-- The later call alone is too late for the first of three batches. -/
theorem polling_loses_nothing_three :
    let m := ofStamps [9 / 10, 1, 11 / 10]
    let nows : List (Time ℚ) := [⟨6 / 5⟩]
    let now : Time ℚ := ⟨27 / 20⟩
    (∀ t ∈ nows, t ≤ now) ∧
      (m.release now).1.batches.map (fun b => b.stamp.seconds) = [1, 11 / 10] ∧
      (m.released (nows.map .get ++ [.get now])).map (List.map fun b => b.stamp.seconds) =
        [[9 / 10, 1], [11 / 10]] ∧
      (m.release now).1.batches.Sublist (m.released (nows.map .get ++ [.get now])).flatten := by
  have h : ∀ t ∈ [(⟨6 / 5⟩ : Time ℚ)], t ≤ ⟨27 / 20⟩ := by decide +kernel
  exact ⟨h, by cbv, by cbv, (polling_loses_nothing _ _ _ h).2.1⟩

end exact

end Intake

end TrackFusion
