import TrackFusion.Proofs.Exact
import TrackFusion.Association.Basic

/-!
# Pairs of tracks and detections

A matching of tracks and detections is a set of cells of their table, at most one in each row and in
each column.

* `IsMatching`, `total`: such sets, and what their cells add up to.
* `Pairing.Shows`: a pairing has the cells of a set in both of its maps.
* `pairing_shows`: the pairing of an assignment is one-to-one, and consists of those of its cells
  that score well enough.
-/

namespace TrackFusion

/-- No value is taken twice. -/
def OneToOne {m n : ℕ} (f : Vec m (Option (Fin n))) : Prop :=
  ∀ j i i', f i = some j → f i' = some j → i = i'

/-- A set of cells without two in a row or in a column. -/
structure IsMatching {m n : ℕ} (s : Finset (Fin m × Fin n)) : Prop where
  row : ∀ p ∈ s, ∀ q ∈ s, p.1 = q.1 → p = q
  col : ∀ p ∈ s, ∀ q ∈ s, p.2 = q.2 → p = q

/-- The maps of a pairing are those of a set of cells, from tracks to detections and back. -/
structure Pairing.Shows {m n : ℕ} (p : Pairing) (s : Finset (Fin m × Fin n)) : Prop where
  direct : ∀ i j, p.direct.get? i = some j ↔ ∃ q ∈ s, q.1.val = i ∧ q.2.val = j
  reverse : ∀ i j, p.reverse.get? j = some i ↔ ∃ q ∈ s, q.1.val = i ∧ q.2.val = j

/-- What the cells of a set add up to. -/
def total {m n : ℕ} {α : Type} [ExactScalar α] (score : Mat m n α)
    (s : Finset (Fin m × Fin n)) : α :=
  ∑ p ∈ s, score p.1 p.2

/-! ### Maps that are built by insertion -/

/-- Inserting pairs of which no two have the same key. -/
theorem IndexMap.get?_foldl_insert {ι : Type} (key val : ι → ℕ) (l : List ι)
    (hl : ∀ a ∈ l, ∀ b ∈ l, key a = key b → a = b) (k v : ℕ) :
    (l.foldl (fun f a => f.insert (key a) (val a)) empty).get? k = some v ↔
      ∃ a ∈ l, key a = k ∧ val a = v := by
  induction l using List.reverseRecOn with
  | nil => simp
  | append_singleton l a ih =>
    have hl' : ∀ b ∈ l, ∀ c ∈ l, key b = key c → b = c := fun b hb c hc =>
      hl b (List.mem_append_left _ hb) c (List.mem_append_left _ hc)
    rw [List.foldl_append, List.foldl_cons, List.foldl_nil, get?_insert]
    constructor
    · intro h
      split at h
      · rename_i hk
        exact ⟨a, by simp, hk.symm, Option.some.inj h⟩
      · obtain ⟨b, hb, hbk⟩ := (ih hl').1 h
        exact ⟨b, List.mem_append_left _ hb, hbk⟩
    · rintro ⟨b, hb, hbk, hbv⟩
      by_cases hk : k = key a
      · have : b = a := hl b hb a (by simp) (hbk.trans hk)
        rw [if_pos hk, ← this, hbv]
      · rw [if_neg hk]
        rcases List.mem_append.1 hb with hb | hb
        · exact (ih hl').2 ⟨b, hb, hbk, hbv⟩
        · rw [List.mem_singleton.1 hb] at hbk
          exact absurd hbk.symm hk

theorem Pairing.foldl_insert {ι : Type} (track detection : ι → ℕ) (l : List ι) (p : Pairing) :
    l.foldl (fun p a => p.insert (track a) (detection a)) p =
      ⟨l.foldl (fun f a => f.insert (track a) (detection a)) p.direct,
        l.foldl (fun f a => f.insert (detection a) (track a)) p.reverse⟩ := by
  induction l generalizing p with
  | nil => rfl
  | cons a l ih => rw [List.foldl_cons, List.foldl_cons, List.foldl_cons, ih]; rfl

namespace Association

variable {m n : ℕ}

theorem mem_pairs {α : Type} (a : Assignment m n α) (q : Fin m × Fin n) :
    q ∈ a.pairs ↔ a.column q.1 = some q.2 := by
  obtain ⟨i, j⟩ := q
  simp only [Assignment.pairs, List.mem_filterMap, List.mem_finRange, true_and,
    Option.map_eq_some_iff, Prod.mk.injEq]
  constructor
  · rintro ⟨i', j', h, rfl, rfl⟩
    exact h
  · intro h
    exact ⟨i, j, h, rfl, rfl⟩

variable {α : Type} [Scalar α]

/-- The cells of an assignment that score well enough. -/
def kept (score : Mat m n α) (a : Assignment m n α) : Finset (Fin m × Fin n) :=
  Finset.univ.filter fun q => a.column q.1 = some q.2 ∧ ¬ score q.1 q.2 < minScore

theorem mem_kept (score : Mat m n α) (a : Assignment m n α) (q : Fin m × Fin n) :
    q ∈ kept score a ↔ a.column q.1 = some q.2 ∧ ¬ score q.1 q.2 < minScore := by
  simp [kept]

theorem kept_isMatching (score : Mat m n α) {a : Assignment m n α} (hone : OneToOne a.column) :
    IsMatching (kept score a) := by
  constructor
  · rintro ⟨i, j⟩ hp ⟨i', j'⟩ hq (rfl : i = i')
    have h : a.column i = some j := ((mem_kept score a _).1 hp).1
    have h' : a.column i = some j' := ((mem_kept score a _).1 hq).1
    rw [Option.some.inj (h.symm.trans h')]
  · rintro ⟨i, j⟩ hp ⟨i', j'⟩ hq (rfl : j = j')
    rw [hone j i i' ((mem_kept score a _).1 hp).1 ((mem_kept score a _).1 hq).1]

/-- **The pairing of an assignment** has its cells that score well enough, and no others. -/
theorem pairing_shows (score : Mat m n α) {a : Assignment m n α} (hone : OneToOne a.column) :
    (pairing score a).Shows (kept score a) := by
  set l := a.pairs.filter fun q => !decide (score q.1 q.2 < minScore) with hl
  have hmem : ∀ q, q ∈ l ↔ q ∈ kept score a := by
    intro q
    simp [hl, mem_kept, mem_pairs]
  have hpairing : pairing score a = l.foldl (fun p q => p.insert q.1.val q.2.val) .empty := by
    rw [hl, List.foldl_filter, pairing]
    congr 1
    funext p q
    by_cases h : score q.1 q.2 < minScore <;> simp [h]
  have hM := kept_isMatching score hone
  rw [hpairing.trans (Pairing.foldl_insert (fun q : Fin m × Fin n => q.1.val)
    (fun q => q.2.val) l .empty)]
  constructor
  · intro i j
    rw [show Pairing.empty.direct = IndexMap.empty from rfl, IndexMap.get?_foldl_insert]
    · simp only [hmem]
    · intro p hp q hq h
      exact hM.row p ((hmem p).1 hp) q ((hmem q).1 hq) (Fin.ext h)
  · intro i j
    rw [show Pairing.empty.reverse = IndexMap.empty from rfl, IndexMap.get?_foldl_insert]
    · simp only [hmem, and_comm]
    · intro p hp q hq h
      exact hM.col p ((hmem p).1 hp) q ((hmem q).1 hq) (Fin.ext h)

end Association

end TrackFusion
