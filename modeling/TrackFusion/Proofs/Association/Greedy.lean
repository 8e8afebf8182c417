import TrackFusion.Proofs.Association.Pairs
import TrackFusion.Proofs.Ordered

/-!
# Stability of the greedy assignment

A cell that the greedy assignment leaves out stands behind a better one in its row or its column.

* `Taken`: what holds while cells are taken one after the other.
* `takeAll_blocked`: a cell that is not taken is blocked by one from before it.
* `Cell.order`: the order in which cells are taken.
* `bestFirst_ahead`: a cell that is not assigned is blocked by one ahead of it.
* `Stable`: assignments that no cell can be said to be missing from; `stable_bestFirst` is one.
* `Twins`: scores that are equal, but told apart by the order of the cells; without them,
  `stable_beats` goes by the values of the scores.
* `bestFirst_stable`: so it is with exact scores, which are no twins.
-/

namespace TrackFusion.Association

variable {m n : ℕ} {α : Type}

/-- What holds when the cells of a list have been taken if they were free. -/
structure Taken (l : List (Cell m n α)) (x : Assignment m n α × Vec n Bool) : Prop where
  one : OneToOne x.1.column
  taken_iff : ∀ j, x.2 j = true ↔ ∃ i, x.1.column i = some j
  mem : ∀ i j, x.1.column i = some j → ∃ c ∈ l, c.row = i ∧ c.col = j

section take

variable [Scalar α]

/-- A cell is blocked if its row or its column is in use. -/
def Blocked (x : Assignment m n α × Vec n Bool) (c : Cell m n α) : Prop :=
  (x.1.column c.row).isSome = true ∨ x.2 c.col = true

theorem take_of_blocked {x : Assignment m n α × Vec n Bool} {c : Cell m n α} (h : Blocked x c) :
    take x c = x := by
  rw [take, if_pos (by simpa [Blocked] using h)]

theorem take_column {x : Assignment m n α × Vec n Bool} {c : Cell m n α} (h : ¬ Blocked x c)
    (i : Fin m) : (take x c).1.column i = if c.row = i then some c.col else x.1.column i := by
  rw [take, if_neg (by simpa [Blocked] using h), Vec.set_apply]

theorem take_taken {x : Assignment m n α × Vec n Bool} {c : Cell m n α} (h : ¬ Blocked x c)
    (j : Fin n) : (take x c).2 j = if c.col = j then true else x.2 j := by
  rw [take, if_neg (by simpa [Blocked] using h), Vec.set_apply]

theorem Taken.take {l : List (Cell m n α)} {x : Assignment m n α × Vec n Bool} (h : Taken l x)
    (c : Cell m n α) : Taken (l ++ [c]) (take x c) := by
  by_cases hb : Blocked x c
  · rw [take_of_blocked hb]
    refine ⟨h.one, h.taken_iff, fun i j hij => ?_⟩
    obtain ⟨c', hc', hrc⟩ := h.mem i j hij
    exact ⟨c', List.mem_append_left _ hc', hrc⟩
  · have hrow : x.1.column c.row = none := by
      by_contra hne
      exact hb (.inl (Option.isSome_iff_ne_none.2 hne))
    have hcol : ∀ i, x.1.column i ≠ some c.col := fun i hi => hb (.inr ((h.taken_iff _).2 ⟨i, hi⟩))
    refine ⟨?_, ?_, ?_⟩
    · intro j i i' hi hi'
      rw [take_column hb] at hi hi'
      split at hi <;> split at hi'
      · rename_i h1 h2
        exact h1.symm.trans h2
      · cases hi
        exact absurd hi' (hcol i')
      · cases hi'
        exact absurd hi (hcol i)
      · exact h.one j i i' hi hi'
    · intro j
      rw [take_taken hb]
      split
      · rename_i hj
        subst hj
        exact ⟨fun _ => ⟨c.row, by rw [take_column hb, if_pos rfl]⟩, fun _ => rfl⟩
      · rename_i hj
        rw [h.taken_iff]
        constructor
        · rintro ⟨i, hi⟩
          refine ⟨i, ?_⟩
          rw [take_column hb, if_neg, hi]
          rintro rfl
          rw [hrow] at hi
          cases hi
        · rintro ⟨i, hi⟩
          rw [take_column hb] at hi
          split at hi
          · exact absurd (Option.some.inj hi) hj
          · exact ⟨i, hi⟩
    · intro i j hij
      rw [take_column hb] at hij
      split at hij
      · rename_i hi
        exact ⟨c, by simp, hi, Option.some.inj hij⟩
      · obtain ⟨c', hc', hrc⟩ := h.mem i j hij
        exact ⟨c', List.mem_append_left _ hc', hrc⟩

/-- Taking cells from none on. -/
def takeAll (l : List (Cell m n α)) : Assignment m n α × Vec n Bool :=
  l.foldl take (.empty, .ofFn fun _ => false)

theorem takeAll_append (l : List (Cell m n α)) (c : Cell m n α) :
    takeAll (l ++ [c]) = take (takeAll l) c := by
  rw [takeAll, List.foldl_append, List.foldl_cons, List.foldl_nil, takeAll]

theorem taken_takeAll (l : List (Cell m n α)) : Taken l (takeAll l) := by
  induction l using List.reverseRecOn with
  | nil =>
    exact ⟨by simp [takeAll, Assignment.empty, OneToOne], by simp [takeAll, Assignment.empty],
      by simp [takeAll, Assignment.empty]⟩
  | append_singleton l c ih =>
    rw [takeAll_append]
    exact ih.take c

/-- What has been taken stays. -/
theorem takeAll_column_mono (l l' : List (Cell m n α)) {i : Fin m} {j : Fin n}
    (h : (takeAll l).1.column i = some j) : (takeAll (l ++ l')).1.column i = some j := by
  induction l' using List.reverseRecOn with
  | nil => simpa using h
  | append_singleton l' c ih =>
    rw [← List.append_assoc, takeAll_append]
    by_cases hb : Blocked (takeAll (l ++ l')) c
    · rw [take_of_blocked hb, ih]
    · rw [take_column hb, if_neg, ih]
      rintro rfl
      exact hb (.inl (by rw [ih]; rfl))

/-- **A cell is taken, or blocked by one from before it** that is taken and has its row or its
column. -/
theorem takeAll_blocked (l l' : List (Cell m n α)) (c : Cell m n α) :
    (takeAll (l ++ c :: l')).1.column c.row = some c.col ∨
      ∃ c' ∈ l, (takeAll (l ++ c :: l')).1.column c'.row = some c'.col ∧
        (c'.row = c.row ∨ c'.col = c.col) := by
  have hT := taken_takeAll l
  by_cases hb : Blocked (takeAll l) c
  · right
    have hex : ∃ i j, (takeAll l).1.column i = some j ∧ (i = c.row ∨ j = c.col) := by
      rcases hb with h | h
      · obtain ⟨j, hj⟩ := Option.isSome_iff_exists.1 h
        exact ⟨_, j, hj, .inl rfl⟩
      · obtain ⟨i, hi⟩ := (hT.taken_iff _).1 h
        exact ⟨i, _, hi, .inr rfl⟩
    obtain ⟨i, j, hij, hor⟩ := hex
    obtain ⟨c', hc', rfl, rfl⟩ := hT.mem i j hij
    exact ⟨c', hc', takeAll_column_mono l _ hij, hor⟩
  · left
    rw [List.append_cons]
    refine takeAll_column_mono _ l' ?_
    rw [takeAll_append, take_column hb, if_pos rfl]

theorem bestFirst_eq (score : Mat m n α) (least : α) :
    bestFirst score least = (takeAll ((candidates score least).mergeSort Cell.precedes)).1 := rfl

theorem bestFirst_oneToOne (score : Mat m n α) (least : α) :
    OneToOne (bestFirst score least).column :=
  (taken_takeAll _).one

end take

/-! ### The order of the cells -/

section order

variable [Scalar α]

/-- Higher scores first, then lower rows, then lower columns. -/
def Cell.order : Cell m n α → Cell m n α → Ordering :=
  compareLex (fun a b => Scalar.order b.score a.score)
    (compareLex (compareOn fun c => c.row.val) (compareOn fun c => c.col.val))

theorem Cell.precedes_eq (a b : Cell m n α) : a.precedes b = (order a b).isLE := by
  have hle : ∀ o : Ordering, (o != .gt) = o.isLE := by
    intro o
    cases o <;> rfl
  exact hle _

/-- A cell comes ahead of another one if its score does, or else its row, or else its column. -/
theorem Cell.order_eq_lt_iff (a b : Cell m n α) : order a b = .lt ↔
    Scalar.order b.score a.score = .lt ∨ Scalar.order b.score a.score = .eq ∧
      (a.row < b.row ∨ a.row = b.row ∧ a.col < b.col) := by
  simp only [order, compareLex, compareOn, Ordering.then_eq_lt, compare_lt_iff_lt,
    compare_eq_iff_eq, Fin.val_fin_lt, Fin.val_inj]

/-- Different cells are told apart. -/
theorem Cell.order_ne_eq {a b : Cell m n α} (hne : ¬ (a.row = b.row ∧ a.col = b.col)) :
    order a b ≠ .eq := by
  intro heq
  simp only [order, compareLex, compareOn, Ordering.then_eq_eq, compare_eq_iff_eq,
    Fin.val_inj] at heq
  exact hne heq.2

/-- A cell that may be assigned. -/
def Admissible (score : Mat m n α) (least : α) (i : Fin m) (j : Fin n) : Prop :=
  Scalar.isFinite (score i j) = true ∧ least ≤ score i j

theorem mem_candidates (score : Mat m n α) (least : α) (c : Cell m n α) :
    c ∈ candidates score least ↔
      c.score = score c.row c.col ∧ Admissible score least c.row c.col := by
  obtain ⟨i, j, x⟩ := c
  simp only [candidates, List.mem_flatMap, List.mem_filterMap, List.mem_finRange, true_and,
    Bool.and_eq_true, decide_eq_true_eq, Option.ite_none_right_eq_some, Option.some.injEq,
    Cell.mk.injEq, Admissible]
  constructor
  · rintro ⟨_, _, hgood, rfl, rfl, rfl⟩
    exact ⟨rfl, hgood⟩
  · rintro ⟨rfl, hgood⟩
    exact ⟨i, j, hgood, rfl, rfl, rfl⟩

theorem admissible_of_bestFirst {score : Mat m n α} {least : α} {i : Fin m} {j : Fin n}
    (h : (bestFirst score least).column i = some j) : Admissible score least i j := by
  obtain ⟨c, hc, rfl, rfl⟩ := (taken_takeAll _).mem i j h
  exact ((mem_candidates score least c).1 (List.mem_mergeSort.1 hc)).2

variable [OrderedScalar α]

instance : Std.TransCmp fun a b : Cell m n α => Scalar.order b.score a.score where
  eq_swap := Std.OrientedCmp.eq_swap
  isLE_trans h h' := Std.TransCmp.isLE_trans h' h

instance : Std.TransCmp (Cell.order : Cell m n α → Cell m n α → Ordering) :=
  inferInstanceAs (Std.TransCmp (compareLex _ _))

theorem Cell.precedes_trans (a b c : Cell m n α) (hab : a.precedes b = true)
    (hbc : b.precedes c = true) : a.precedes c = true := by
  rw [Cell.precedes_eq] at *
  exact Std.TransCmp.isLE_trans hab hbc

theorem Cell.precedes_total (a b : Cell m n α) : (a.precedes b || b.precedes a) = true := by
  rw [Cell.precedes_eq, Cell.precedes_eq, (Std.OrientedCmp.eq_swap : Cell.order b a = _)]
  cases Cell.order a b <;> rfl

/-- **The greedy assignment is stable.** A cell that may be assigned is, or one ahead of it in its
row or its column is. -/
theorem bestFirst_ahead {score : Mat m n α} {least : α} {i : Fin m} {j : Fin n}
    (h : Admissible score least i j) :
    (bestFirst score least).column i = some j ∨
      ∃ i' j', (bestFirst score least).column i' = some j' ∧ (i' = i ∨ j' = j) ∧
        Cell.order ⟨i', j', score i' j'⟩ ⟨i, j, score i j⟩ = .lt := by
  set l := (candidates score least).mergeSort Cell.precedes with hl
  have hmem : ∀ c ∈ l, c.score = score c.row c.col := fun c hc =>
    ((mem_candidates score least c).1 (List.mem_mergeSort.1 hc)).1
  have hsorted : l.Pairwise fun a b => a.precedes b = true :=
    List.pairwise_mergeSort Cell.precedes_trans Cell.precedes_total _
  have hc : (⟨i, j, score i j⟩ : Cell m n α) ∈ l :=
    List.mem_mergeSort.2 ((mem_candidates score least _).2 ⟨rfl, h⟩)
  obtain ⟨l₁, l₂, hsplit⟩ := List.append_of_mem hc
  rw [bestFirst_eq, ← hl, hsplit]
  rcases takeAll_blocked l₁ l₂ (⟨i, j, score i j⟩ : Cell m n α) with ht | ⟨c', hc', ht, hor⟩
  · exact .inl ht
  · by_cases hsame : c'.row = i ∧ c'.col = j
    · obtain ⟨rfl, rfl⟩ := hsame
      exact .inl ht
    · refine .inr ⟨c'.row, c'.col, ht, hor, ?_⟩
      have hl' : c' ∈ l := hsplit ▸ List.mem_append_left _ hc'
      rw [hsplit] at hsorted
      have hprec := (List.pairwise_append.1 hsorted).2.2 c' hc' _ List.mem_cons_self
      rw [Cell.precedes_eq, Ordering.isLE_iff_eq_lt_or_eq_eq] at hprec
      rw [← hmem c' hl']
      exact hprec.resolve_right (Cell.order_ne_eq hsame)

end order

/-! ### Stability -/

section stable

variable [Scalar α]

/-- The score of a cell is higher, or they are equal and its row is lower, or else its column. -/
def Cell.Beats (a b : Cell m n α) : Prop :=
  b.score < a.score ∨ (b.score ≤ a.score ∧ a.score ≤ b.score) ∧
    (a.row < b.row ∨ a.row = b.row ∧ a.col < b.col)

/-- No row and no column is used twice, all cells may be assigned, and those that may and are not
have an assigned one in their row or their column that comes ahead of them. -/
structure Stable (ahead : Cell m n α → Cell m n α → Prop) (score : Mat m n α) (least : α)
    (a : Assignment m n α) : Prop where
  one : OneToOne a.column
  admissible : ∀ i j, a.column i = some j → Admissible score least i j
  blocked : ∀ i j, Admissible score least i j → a.column i = some j ∨
    ∃ i' j', a.column i' = some j' ∧ (i' = i ∨ j' = j) ∧
      ahead ⟨i', j', score i' j'⟩ ⟨i, j, score i j⟩

/-- Two numbers that are equal, but that the total order tells apart. -/
def Twins (x y : α) : Prop := (x ≤ y ∧ y ≤ x) ∧ Scalar.order x y ≠ .eq

theorem Stable.imp {ahead ahead' : Cell m n α → Cell m n α → Prop} {score : Mat m n α} {least : α}
    {a : Assignment m n α} (h : Stable ahead score least a)
    (himp : ∀ i j i' j', Admissible score least i j → Admissible score least i' j' →
      ahead ⟨i', j', score i' j'⟩ ⟨i, j, score i j⟩ →
      ahead' ⟨i', j', score i' j'⟩ ⟨i, j, score i j⟩) : Stable ahead' score least a := by
  refine ⟨h.one, h.admissible, fun i j hij => ?_⟩
  rcases h.blocked i j hij with hmem | ⟨i', j', hmem, hor, hahead⟩
  · exact .inl hmem
  · exact .inr ⟨i', j', hmem, hor, himp i j i' j' hij (h.admissible i' j' hmem) hahead⟩

variable [OrderedScalar α]

theorem stable_bestFirst (score : Mat m n α) (least : α) :
    Stable (fun a b => Cell.order a b = .lt) score least (bestFirst score least) where
  one := bestFirst_oneToOne score least
  admissible _ _ := admissible_of_bestFirst
  blocked _ _ := bestFirst_ahead

/-- Without twins, the order of the cells is that of their scores. -/
theorem stable_beats {score : Mat m n α} {least : α}
    (htwins : ∀ i j i' j', Admissible score least i j → Admissible score least i' j' →
      ¬Twins (score i j) (score i' j')) :
    Stable Cell.Beats score least (bestFirst score least) := by
  refine (stable_bestFirst score least).imp fun i j i' j' hij hij' hahead => ?_
  have hnan := (OrderedScalar.isNaN_of_le hij.2).2
  have hnan' := (OrderedScalar.isNaN_of_le hij'.2).2
  rcases (Cell.order_eq_lt_iff _ _).1 hahead with hlt | ⟨heq, hplace⟩
  · have hle : score i j ≤ score i' j' :=
      OrderedScalar.le_of_order (hlt.trans_ne (by decide)) hnan hnan'
    have hnot : ¬score i' j' ≤ score i j := fun hge =>
      htwins i j i' j' hij hij' ⟨⟨hle, hge⟩, hlt.trans_ne (by decide)⟩
    exact .inl (OrderedScalar.lt_iff.2 ⟨hle, hnot⟩)
  · have hle : score i j ≤ score i' j' :=
      OrderedScalar.le_of_order (heq.trans_ne (by decide)) hnan hnan'
    have hswap : Scalar.order (score i' j') (score i j) = .eq := by
      rw [← OrderedScalar.order_swap, heq]
      rfl
    exact .inr ⟨⟨hle, OrderedScalar.le_of_order (hswap.trans_ne (by decide)) hnan' hnan⟩, hplace⟩

end stable

/-! ### Exact scores -/

variable [ExactScalar α]

theorem admissible_iff {score : Mat m n α} {least : α} {i : Fin m} {j : Fin n} :
    Admissible score least i j ↔ least ≤ score i j := by
  rw [Admissible, ExactScalar.isFinite_eq, eq_self, true_and]

theorem not_twins (x y : α) : ¬Twins x y := by
  rintro ⟨⟨hxy, hyx⟩, hne⟩
  rw [ExactScalar.order_eq] at hne
  exact hne (compare_eq_iff_eq.2 (le_antisymm hxy hyx))

/-- Exact scores are not told apart by more than their values. -/
theorem bestFirst_stable (score : Mat m n α) (least : α) :
    Stable Cell.Beats score least (bestFirst score least) :=
  stable_beats fun i j i' j' _ _ => not_twins (score i j) (score i' j')

end TrackFusion.Association
