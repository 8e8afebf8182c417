import TrackFusion.Proofs.Association.Pairs

/-!
# Shortest ways with potentials

A search from a row reaches a free column by cells of reduced cost zero.

* `Search.Trail`: the ways of a search end, whatever its numbers are.
* `Search.run_trail`: so a search that ends does so at a free column, with such ways.
* `Search.Inv`: what holds of a search between two steps.
* `Search.Inv.relax`, `shift`, `visit`, `visitRow`: each step keeps it.
* `Search.run_ok`: a search ends at a free column; it runs out of neither columns nor steps.
-/

namespace TrackFusion.Association

variable {n : ℕ}

/-- A row belongs to some column. -/
def Matched (rowOf : Vec n (Option (Fin n))) (i : Fin n) : Prop := ∃ j, rowOf j = some i

/-- The row that the way comes from if `before?` is the column before. -/
def rowBefore (root : Fin n) (rowOf : Vec n (Option (Fin n))) : Option (Fin n) → Option (Fin n)
  | none => some root
  | some b => rowOf b

namespace Search

/-! ### What the steps do -/

section visit

variable {α : Type} (s : Search n α)

@[simp] theorem visit_u (j : Fin n) : (s.visit j).u = s.u := rfl
@[simp] theorem visit_v (j : Fin n) : (s.visit j).v = s.v := rfl
@[simp] theorem visit_seen (j : Fin n) : (s.visit j).seen = s.seen := rfl

theorem visit_used (j b : Fin n) : (s.visit j).used b = true ↔ b = j ∨ s.used b = true := by
  by_cases h : j = b
  · simp [visit, Vec.set_apply, h]
  · simp [visit, Vec.set_apply, h, Ne.symm h]

@[simp] theorem visitRow_used (i : Fin n) : (s.visitRow i).used = s.used := rfl

theorem visitRow_seen (i i' : Fin n) :
    (s.visitRow i).seen i' = true ↔ i' = i ∨ s.seen i' = true := by
  by_cases h : i = i'
  · simp [visitRow, Vec.set_apply, h]
  · simp [visitRow, Vec.set_apply, h, Ne.symm h]

end visit

section shift

variable {α : Type} [Scalar α] (s : Search n α)

theorem relax_way_of_used (c : Mat n n α) (i : Fin n) (f : Option (Fin n)) {j : Fin n}
    (hj : s.used j = true) : (s.relax c i f).way j = s.way j := by
  simp [relax, hj]

@[simp] theorem shift_used (d : α) : (s.shift d).used = s.used := rfl
@[simp] theorem shift_seen (d : α) : (s.shift d).seen = s.seen := rfl

theorem shift_u (d : α) (i : Fin n) : (s.shift d).u i = if s.seen i then s.u i + d else s.u i := by
  simp [shift]

theorem shift_v (d : α) (j : Fin n) : (s.shift d).v j = if s.used j then s.v j - d else s.v j := by
  simp [shift]

theorem shift_reach (d : α) {j : Fin n} (hj : s.used j = false) :
    (s.shift d).reach j = (s.reach j).map (· - d) := by
  simp [shift, hj]

end shift

section trail

variable {α : Type}

/-! ### Ways that end -/

/-- The columns that have been visited. -/
def visited (s : Search n α) : Finset (Fin n) :=
  Finset.univ.filter fun j => s.used j = true

@[simp] theorem mem_visited (s : Search n α) (j : Fin n) :
    j ∈ s.visited ↔ s.used j = true := by
  simp [visited]

theorem card_visited_visit (s : Search n α) {j : Fin n} (hj : s.used j = false) :
    (s.visit j).visited.card = s.visited.card + 1 := by
  have : (s.visit j).visited = insert j s.visited := by
    ext b
    simp [visit_used]
  rw [this, Finset.card_insert_of_notMem (by simp [hj])]

/-- The ways of a search lead over visited columns, and end. -/
structure Trail (s : Search n α) : Prop where
  way_used : ∀ j b, s.way j = some b → s.used b = true
  /-- Columns can be numbered such that the way to a visited one leads over lower numbers. -/
  ordered : ∃ rank : Fin n → ℕ, ∀ j, s.used j = true →
    rank j < s.visited.card ∧ ∀ b, s.way j = some b → rank b < rank j

/-- Visiting an unvisited column. -/
theorem Trail.visit {s : Search n α} (h : Trail s) {j : Fin n} (hj : s.used j = false) :
    Trail (s.visit j) where
  way_used b b' hb := (visit_used s j b').2 (.inr (h.way_used b b' hb))
  ordered := by
    obtain ⟨rank, hrank⟩ := h.ordered
    rw [card_visited_visit s hj]
    -- the column gets the highest number so far
    refine ⟨Function.update rank j s.visited.card, ?_⟩
    intro b hb
    have hne : ∀ b, s.used b = true → b ≠ j := by
      intro b hu e
      rw [e, hj] at hu
      cases hu
    rcases (visit_used s j b).1 hb with rfl | hu
    · refine ⟨by simp, fun b' hb' => ?_⟩
      have hu := h.way_used b b' hb'
      simpa [hne b' hu] using (hrank b' hu).1
    · obtain ⟨hlt, hway⟩ := hrank b hu
      refine ⟨by simpa [hne b hu] using Nat.lt_succ_of_lt hlt, fun b' hb' => ?_⟩
      have hu' := h.way_used b b' hb'
      simpa [hne b hu, hne b' hu'] using hway b' hb'

theorem Trail.visitRow {s : Search n α} (h : Trail s) (i : Fin n) : Trail (s.visitRow i) :=
  ⟨h.way_used, h.ordered⟩

theorem trail_start (m : Matching n α) (root : Fin n) : Trail (start m root) :=
  ⟨by simp [start], by simp [start]⟩

variable [Scalar α]

theorem Trail.shift {s : Search n α} (h : Trail s) (d : α) : Trail (s.shift d) :=
  ⟨h.way_used, h.ordered⟩

/-- Looking at the columns from a visited one changes no way to a visited column. -/
theorem Trail.relax {s : Search n α} (h : Trail s) (c : Mat n n α) (i : Fin n) {f : Option (Fin n)}
    (hf : ∀ b, f = some b → s.used b = true) : Trail (s.relax c i f) where
  way_used j b hb := by
    simp only [Search.relax, Vec.ofFn_apply] at hb
    split at hb
    · exact hf b hb
    · exact h.way_used j b hb
  ordered := by
    obtain ⟨rank, hrank⟩ := h.ordered
    refine ⟨rank, fun j hj => ⟨(hrank j hj).1, ?_⟩⟩
    rw [relax_way_of_used s c i f hj]
    exact (hrank j hj).2

/-- One comparison of `nearest`. -/
def closer (s : Search n α) (best : Option (α × Fin n)) (j : Fin n) : Option (α × Fin n) :=
  match s.reach j with
  | none => best
  | some d => if !s.used j && below d (best.map Prod.fst) then some (d, j) else best

/-- Only unvisited columns are looked for. -/
theorem nearest_unused {s : Search n α} {d : α} {j : Fin n} (h : s.nearest = some (d, j)) :
    s.used j = false := by
  have hall : ∀ (l : List (Fin n)) best, (∀ p, best = some p → s.used p.2 = false) →
      ∀ p, l.foldl s.closer best = some p → s.used p.2 = false := by
    intro l
    induction l with
    | nil => exact fun best hbest => hbest
    | cons j l ih =>
      intro best hbest
      refine ih (s.closer best j) fun p hp => ?_
      unfold closer at hp
      split at hp
      · exact hbest p hp
      · split at hp
        · rename_i hu
          cases hp
          simpa using (Bool.and_eq_true_iff.1 hu).1
        · exact hbest p hp
  exact hall (List.finRange n) none (by simp) (d, j) h

/-- **A search that ends does so at a free column.** Nothing is said of the numbers: they may be
undefined, too. -/
theorem run_trail {c : Mat n n α} {rowOf : Vec n (Option (Fin n))} (fuel : ℕ) :
    ∀ {s i f s' j}, Trail s → (∀ b, s.used b = true → ∃ i', rowOf b = some i') →
      (∀ b, f = some b → s.used b = true) → run c rowOf fuel s i f = some (s', j) →
      Trail s' ∧ s'.used j = true ∧ rowOf j = none := by
  induction fuel with
  | zero =>
    intro s i f s' j _ _ _ hrun
    cases hrun
  | succ fuel ih =>
    intro s i f s' j h hmatched hf hrun
    have hrelax := h.relax c i hf
    rw [run] at hrun
    cases hnear : (s.relax c i f).nearest with
    | none =>
      -- no column is in reach: the search ends at the first one, if that is free
      simp only [hnear, stranded] at hrun
      cases hhead : (List.finRange n).head? with
      | none =>
        rw [hhead] at hrun
        cases hrun
      | some j₀ =>
        simp only [hhead] at hrun
        split at hrun
        · cases hrun
        · rename_i hfree
          cases hrun
          have hnone : rowOf j = none := by simpa using hfree
          have hunused : s.used j = false := by
            by_contra hu
            obtain ⟨i', hi'⟩ := hmatched j (Bool.not_eq_false _ ▸ hu)
            rw [hnone] at hi'
            cases hi'
          exact ⟨(hrelax.shift _).visit hunused,
            (visit_used ((s.relax c i f).shift _) j j).2 (.inl rfl), hnone⟩
    | some p =>
      obtain ⟨d, j₀⟩ := p
      have hunused : s.used j₀ = false := nearest_unused (s := s.relax c i f) hnear
      have hvisit := (hrelax.shift d).visit (j := j₀) hunused
      have hself : (((s.relax c i f).shift d).visit j₀).used j₀ = true :=
        (visit_used ((s.relax c i f).shift d) j₀ j₀).2 (.inl rfl)
      simp only [hnear] at hrun
      cases hrow : rowOf j₀ with
      | none =>
        simp only [hrow, Option.some.injEq, Prod.mk.injEq] at hrun
        obtain ⟨rfl, rfl⟩ := hrun
        exact ⟨hvisit, hself, hrow⟩
      | some i' =>
        simp only [hrow] at hrun
        refine ih (hvisit.visitRow i') (fun b hb => ?_) (fun b hb => ?_) hrun
        · rcases (visit_used ((s.relax c i f).shift d) j₀ b).1 hb with rfl | hb
          · exact ⟨i', hrow⟩
          · exact hmatched b hb
        · cases hb
          exact hself

end trail

variable {α : Type} [ExactScalar α]

theorem below_none (x : α) : below x none = true := by simp [below]

theorem below_some (x d : α) : below x (some d) = true ↔ x < d := by simp [below]

/-- Looking at an unvisited column from a row: either the column is now reached from there, at the
reduced cost of the cell, or it was as near before, and all stays as it was. -/
theorem relax_cases (s : Search n α) (c : Mat n n α) (i : Fin n) (f : Option (Fin n)) {j : Fin n}
    (hj : s.used j = false) :
    ((s.relax c i f).reach j = some (s.reduced c i j) ∧ (s.relax c i f).way j = f ∧
        ∀ d, s.reach j = some d → s.reduced c i j ≤ d) ∨
      ((s.relax c i f).reach j = s.reach j ∧ (s.relax c i f).way j = s.way j ∧
        ∃ d, s.reach j = some d ∧ d ≤ s.reduced c i j) := by
  simp only [relax, Vec.ofFn_apply, hj, Bool.not_false, Bool.true_and]
  cases hr : s.reach j with
  | none => left; simp [below_none]
  | some d =>
    by_cases hd : s.reduced c i j < d
    · left; simp [below_some, hd, hd.le]
    · right; simp [below_some, hd, not_lt.1 hd]

/-- What is said of the nearest of some columns: it is unvisited and no other unvisited one is
nearer. Only if none is reached there is no nearest one. -/
def IsNearest (s : Search n α) (l : List (Fin n)) : Option (α × Fin n) → Prop
  | none => ∀ j ∈ l, s.used j = false → s.reach j = none
  | some (d, j) => s.used j = false ∧ s.reach j = some d ∧
      ∀ j' ∈ l, s.used j' = false → ∀ d', s.reach j' = some d' → d ≤ d'

theorem IsNearest.closer {s : Search n α} {l : List (Fin n)} {best : Option (α × Fin n)}
    (h : s.IsNearest l best) (j : Fin n) : s.IsNearest (l ++ [j]) (s.closer best j) := by
  unfold Search.closer
  cases hr : s.reach j with
  | none =>
    -- a column out of reach is no candidate
    cases best <;> simp only [IsNearest] at h ⊢ <;> grind
  | some d =>
    by_cases hu : s.used j = true
    · cases best <;> simp only [hu, IsNearest] at h ⊢ <;> grind
    · cases best with
      | none =>
        simp only [IsNearest] at h
        simp [hu, below_none, IsNearest]
        grind
      | some b =>
        obtain ⟨hb, hbr, hmin⟩ := h
        by_cases hd : d < b.1
        · simp [hu, below_some, hd, IsNearest, hr]
          grind
        · simp [hu, below_some, hd, IsNearest]
          grind

theorem nearest_isNearest (s : Search n α) : s.IsNearest (List.finRange n) s.nearest := by
  show s.IsNearest _ ((List.finRange n).foldl s.closer none)
  induction List.finRange n using List.reverseRecOn with
  | nil => simp [IsNearest]
  | append_singleton l j ih =>
    rw [List.foldl_append, List.foldl_cons, List.foldl_nil]
    exact ih.closer j

/-! ### The invariant -/

/-- The rows that have been visited are the first one and those of the visited columns. -/
def SeenOK {α : Type} (rowOf : Vec n (Option (Fin n))) (root : Fin n) (s : Search n α) : Prop :=
  ∀ i, s.seen i = true ↔ i = root ∨ ∃ j, s.used j = true ∧ rowOf j = some i

/-- Visiting a column and then its row. -/
theorem SeenOK.visit {α : Type} {rowOf : Vec n (Option (Fin n))} {root i j : Fin n} {s : Search n α}
    (h : SeenOK rowOf root s) (hj : rowOf j = some i) :
    SeenOK rowOf root ((s.visit j).visitRow i) := by
  intro k
  rw [visitRow_seen, visit_seen, visitRow_used, h k]
  constructor
  · rintro (rfl | hk | ⟨b, hb, hbk⟩)
    · exact .inr ⟨j, (visit_used s j j).2 (.inl rfl), hj⟩
    · exact .inl hk
    · exact .inr ⟨b, (visit_used s j b).2 (.inr hb), hbk⟩
  · rintro (hk | ⟨b, hb, hbk⟩)
    · exact .inr (.inl hk)
    · rcases (visit_used s j b).1 hb with rfl | hb
      · exact .inl (Option.some.inj (hbk.symm.trans hj))
      · exact .inr (.inr ⟨b, hb, hbk⟩)

/-- What holds of a search for the row `root`. All columns have been looked at from the visited
rows, from `next?` excepted. The potentials of `root` count from the first visit on; before it, its
cells may have any cost. -/
structure Inv (c : Mat n n α) (rowOf : Vec n (Option (Fin n))) (root : Fin n)
    (next? : Option (Fin n)) (s : Search n α) : Prop extends Trail s where
  /-- The cells of the rows that have a column cost at least their potentials. -/
  feasible : ∀ i, Matched rowOf i → ∀ j, s.u i + s.v j ≤ c i j
  feasible_root : ∀ b, s.used b = true → ∀ j, s.u root + s.v j ≤ c root j
  /-- The cells that are in use cost as much. -/
  tight : ∀ i j, rowOf j = some i → s.u i + s.v j = c i j
  /-- The way to a visited column comes over a cell without reduced cost. -/
  way_tight : ∀ j, s.used j = true → ∃ i, rowBefore root rowOf (s.way j) = some i ∧
    s.seen i = true ∧ s.u i + s.v j = c i j
  /-- The distance of an unvisited column is the reduced cost of the last cell on the way. -/
  reach_way : ∀ j, s.used j = false → ∀ d, s.reach j = some d →
    ∃ i, rowBefore root rowOf (s.way j) = some i ∧ s.seen i = true ∧ s.reduced c i j = d
  reach_le : ∀ i, s.seen i = true → next? ≠ some i → ∀ j, s.used j = false →
    ∃ d, s.reach j = some d ∧ d ≤ s.reduced c i j
  reach_nonneg : ∀ b, s.used b = true → ∀ j, s.used j = false → ∀ d, s.reach j = some d → 0 ≤ d

namespace Inv

variable {c : Mat n n α} {rowOf : Vec n (Option (Fin n))} {root : Fin n} {s : Search n α}

/-- Looking at all columns from one more row: the first one, or that of a visited column. -/
theorem relax {i : Fin n} (h : Inv c rowOf root (some i) s) {f : Option (Fin n)}
    (hi : s.seen i = true) (hf : rowBefore root rowOf f = some i)
    (hfu : ∀ b, f = some b → s.used b = true) (hm : ∀ b, s.used b = true → Matched rowOf i) :
    Inv c rowOf root none (s.relax c i f) where
  toTrail := h.toTrail.relax c i hfu
  feasible := h.feasible
  feasible_root := h.feasible_root
  tight := h.tight
  way_tight j hj := by
    rw [relax_way_of_used s c i f hj]
    exact h.way_tight j hj
  reach_way j hj d hd := by
    rcases relax_cases s c i f hj with ⟨hr, hw, -⟩ | ⟨hr, hw, -⟩
    · rw [hr] at hd
      rw [hw]
      exact ⟨i, hf, hi, Option.some.inj hd⟩
    · rw [hr] at hd
      rw [hw]
      exact h.reach_way j hj d hd
  reach_le i' hi' _ j hj := by
    by_cases hii : i' = i
    · subst hii
      rcases relax_cases s c i' f hj with ⟨hr, -, -⟩ | ⟨hr, -, d, hd, hle⟩
      · exact ⟨_, hr, le_rfl⟩
      · exact ⟨d, hr.trans hd, hle⟩
    · obtain ⟨d, hd, hle⟩ := h.reach_le i' hi' (fun e => hii (Option.some.inj e).symm) j hj
      rcases relax_cases s c i f hj with ⟨hr, -, hle'⟩ | ⟨hr, -, -⟩
      · exact ⟨_, hr, (hle' d hd).trans hle⟩
      · exact ⟨d, hr.trans hd, hle⟩
  reach_nonneg b hb j hj d hd := by
    rcases relax_cases s c i f hj with ⟨hr, -, -⟩ | ⟨hr, -, -⟩
    · rw [hr] at hd
      rw [← Option.some.inj hd]
      have := h.feasible i (hm b hb) j
      simp only [reduced]
      linarith
    · rw [hr] at hd
      exact h.reach_nonneg b hb j hj d hd

/-- Shifting by the distance of the nearest unvisited column. The potentials of `root` count from
now on, and no distance is negative. -/
theorem shift (h : Inv c rowOf root none s) (hone : OneToOne rowOf) (hroot : ¬ Matched rowOf root)
    (hseen : SeenOK rowOf root s) {d : α} {j₀ : Fin n}
    (hd : s.IsNearest (List.finRange n) (some (d, j₀))) :
    Inv c rowOf root none (s.shift d) ∧
      (∀ j, (s.shift d).u root + (s.shift d).v j ≤ c root j) ∧
      ∀ j, s.used j = false → ∀ e, (s.shift d).reach j = some e → 0 ≤ e := by
  obtain ⟨hj₀, hr₀, hmin⟩ := hd
  -- before the first visit `d` may be negative, but then no column is shifted
  have hd0 : ∀ b, s.used b = true → 0 ≤ d := fun b hb => h.reach_nonneg b hb j₀ hj₀ d hr₀
  have hle : ∀ i, s.seen i = true → ∀ j, s.used j = false → d ≤ c i j - s.u i - s.v j := by
    intro i hi j hj
    obtain ⟨e, he, hei⟩ := h.reach_le i hi (by simp) j hj
    exact (hmin j (List.mem_finRange j) hj e he).trans hei
  have hseen_root : s.seen root = true := (hseen root).2 (.inl rfl)
  -- a row and its column are visited together, so their potentials are shifted against each other
  have hused_iff : ∀ i j, rowOf j = some i → (s.used j = true ↔ s.seen i = true) := by
    intro i j hij
    constructor
    · intro hj
      exact (hseen i).2 (.inr ⟨j, hj, hij⟩)
    · intro hi
      rcases (hseen i).1 hi with rfl | ⟨j', hj', hij'⟩
      · exact absurd ⟨j, hij⟩ hroot
      · rwa [hone i j j' hij hij']
  have hroot' : ∀ j, (s.shift d).u root + (s.shift d).v j ≤ c root j := by
    intro j
    rw [shift_u, shift_v, if_pos hseen_root]
    cases hj : s.used j with
    | true =>
      have := h.feasible_root j hj j
      rw [if_pos rfl]
      linarith
    | false =>
      have := hle root hseen_root j hj
      rw [if_neg Bool.false_ne_true]
      linarith
  have hnonneg : ∀ j, s.used j = false → ∀ e, (s.shift d).reach j = some e → 0 ≤ e := by
    intro j hj e he
    rw [shift_reach s d hj] at he
    obtain ⟨e', he', rfl⟩ := Option.map_eq_some_iff.1 he
    have := hmin j (List.mem_finRange j) hj e' he'
    linarith
  refine ⟨?_, hroot', hnonneg⟩
  exact {
    h.toTrail.shift d with
    feasible := by
      intro i hi j
      have hf := h.feasible i hi j
      rw [shift_u, shift_v]
      cases hs : s.seen i <;> cases hj : s.used j
      · simpa using hf
      · have := hd0 j hj
        simp only [Bool.false_eq_true, if_true, if_false]
        linarith
      · have := hle i hs j hj
        simp only [Bool.false_eq_true, if_true, if_false]
        linarith
      · simp only [if_true]
        linarith
    feasible_root := fun _ _ => hroot'
    tight := by
      intro i j hij
      have ht := h.tight i j hij
      rw [shift_u, shift_v]
      by_cases hj : s.used j = true
      · rw [if_pos ((hused_iff i j hij).1 hj), if_pos hj]
        linarith
      · rw [if_neg (mt (hused_iff i j hij).2 hj), if_neg hj]
        exact ht
    way_tight := by
      intro j hj
      obtain ⟨i, hi, hs, ht⟩ := h.way_tight j hj
      refine ⟨i, hi, hs, ?_⟩
      rw [shift_used] at hj
      rw [shift_u, shift_v, if_pos hs, if_pos hj]
      linarith
    reach_way := by
      intro j hj e he
      rw [shift_used] at hj
      rw [shift_reach s d hj] at he
      obtain ⟨e', he', rfl⟩ := Option.map_eq_some_iff.1 he
      obtain ⟨i, hi, hs, hred⟩ := h.reach_way j hj e' he'
      refine ⟨i, hi, hs, ?_⟩
      simp only [reduced] at hred ⊢
      rw [shift_u, shift_v, if_pos hs, if_neg (by simp [hj])]
      linarith
    reach_le := by
      intro i hi hn j hj
      rw [shift_used] at hj
      obtain ⟨e, he, hei⟩ := h.reach_le i hi hn j hj
      refine ⟨e - d, by rw [shift_reach s d hj, he]; rfl, ?_⟩
      simp only [reduced] at hei ⊢
      rw [shift_seen] at hi
      rw [shift_u, shift_v, if_pos hi, if_neg (by simp [hj])]
      linarith
    reach_nonneg := fun _ _ => hnonneg }

/-- Visiting an unvisited column at distance zero. -/
theorem visit (h : Inv c rowOf root none s) (hroot : ∀ j, s.u root + s.v j ≤ c root j)
    (hnn : ∀ j, s.used j = false → ∀ e, s.reach j = some e → 0 ≤ e) {j : Fin n}
    (hj : s.used j = false) (hr : s.reach j = some 0) : Inv c rowOf root none (s.visit j) := by
  have hunused : ∀ b, (s.visit j).used b = false → s.used b = false := by
    intro b hb
    by_contra hb'
    have := (visit_used s j b).2 (.inr (Bool.not_eq_false _ ▸ hb'))
    simp [hb] at this
  exact {
    h.toTrail.visit hj with
    feasible := h.feasible
    feasible_root := fun _ _ => hroot
    tight := h.tight
    way_tight := by
      intro b hb
      rcases (visit_used s j b).1 hb with rfl | hb
      · obtain ⟨i, hi, hs, hred⟩ := h.reach_way b hj 0 hr
        simp only [reduced] at hred
        exact ⟨i, hi, hs, by simp only [visit_u, visit_v]; linarith⟩
      · exact h.way_tight b hb
    reach_way := fun b hb => h.reach_way b (hunused b hb)
    reach_le := fun i hi hn b hb => h.reach_le i hi hn b (hunused b hb)
    reach_nonneg := fun _ _ b hb => hnn b (hunused b hb) }

/-- Visiting a row. The columns have not been looked at from there. -/
theorem visitRow (h : Inv c rowOf root none s) (i : Fin n) :
    Inv c rowOf root (some i) (s.visitRow i) where
  toTrail := h.toTrail.visitRow i
  feasible := h.feasible
  feasible_root := h.feasible_root
  tight := h.tight
  way_tight j hj := by
    obtain ⟨i', hi', hs, ht⟩ := h.way_tight j hj
    exact ⟨i', hi', (visitRow_seen s i i').2 (.inr hs), ht⟩
  reach_way j hj d hd := by
    obtain ⟨i', hi', hs, ht⟩ := h.reach_way j hj d hd
    exact ⟨i', hi', (visitRow_seen s i i').2 (.inr hs), ht⟩
  reach_le i' hi' hn := by
    rcases (visitRow_seen s i i').1 hi' with rfl | hi'
    · exact absurd rfl hn
    · exact h.reach_le i' hi' (by simp)
  reach_nonneg := h.reach_nonneg

end Inv

/-! ### The run -/

/-- A search stands at the row `i`, which it reached by way of the column `f`. -/
structure AtRow (c : Mat n n α) (rowOf : Vec n (Option (Fin n))) (root i : Fin n)
    (f : Option (Fin n)) (s : Search n α) : Prop extends Inv c rowOf root (some i) s where
  seen_ok : SeenOK rowOf root s
  /-- A search ends with the first free column. -/
  used_matched : ∀ b, s.used b = true → ∃ i', rowOf b = some i'
  seen : s.seen i = true
  before : rowBefore root rowOf f = some i
  before_used : ∀ b, f = some b → s.used b = true
  matched : ∀ b, s.used b = true → Matched rowOf i

variable {c : Mat n n α} {rowOf : Vec n (Option (Fin n))} {root i : Fin n} {f : Option (Fin n)}
  {s : Search n α}

theorem atRow_start {m : Matching n α} (hf : ∀ i, Matched m.rowOf i → ∀ j, m.u i + m.v j ≤ c i j)
    (ht : ∀ i j, m.rowOf j = some i → m.u i + m.v j = c i j) (root : Fin n) :
    AtRow c m.rowOf root root none (start m root) where
  toTrail := trail_start m root
  feasible := hf
  feasible_root := by simp [start]
  tight := ht
  way_tight := by simp [start]
  reach_way := by simp [start]
  reach_le i hi hn := by
    simp only [start, Vec.ofFn_apply, decide_eq_true_eq] at hi
    simp [hi] at hn
  reach_nonneg := by simp [start]
  seen_ok := by simp [start, SeenOK]
  used_matched := by simp [start]
  seen := by simp [start]
  before := rfl
  before_used := by simp
  matched := by simp [start]

/-- Not all columns have been visited: they would belong to all rows, and `root` has none. -/
theorem AtRow.exists_unused (h : AtRow c rowOf root i f s) (hone : OneToOne rowOf)
    (hroot : ¬ Matched rowOf root) : ∃ j, s.used j = false := by
  by_contra hall
  have hall : ∀ j, s.used j = true := by simpa using hall
  choose row hrow using fun j => h.used_matched j (hall j)
  have hinj : Function.Injective row := fun j j' e => hone (row j) j j' (hrow j) (e ▸ hrow j')
  obtain ⟨j, hj⟩ := Finite.injective_iff_surjective.1 hinj root
  exact hroot ⟨j, hj ▸ hrow j⟩

/-- Going on to the nearest column: it is a free one, or the search stands at its row. -/
theorem AtRow.step (h : AtRow c rowOf root i f s) (hone : OneToOne rowOf)
    (hroot : ¬ Matched rowOf root) :
    ∃ d j, (s.relax c i f).nearest = some (d, j) ∧ s.used j = false ∧
      (rowOf j = none → Inv c rowOf root none (((s.relax c i f).shift d).visit j)) ∧
      ∀ i', rowOf j = some i' →
        AtRow c rowOf root i' (some j) ((((s.relax c i f).shift d).visit j).visitRow i') := by
  have hI := h.toInv.relax h.seen h.before h.before_used h.matched
  have hn := (s.relax c i f).nearest_isNearest
  cases hnear : (s.relax c i f).nearest with
  | none =>
    -- some column is unvisited, and it is in reach of `i`
    rw [hnear] at hn
    obtain ⟨j, hj⟩ := h.exists_unused hone hroot
    obtain ⟨d, hd, -⟩ := hI.reach_le i h.seen (by simp) j hj
    rw [hn j (List.mem_finRange j) hj] at hd
    cases hd
  | some p =>
    obtain ⟨d, j⟩ := p
    rw [hnear] at hn
    have hj : s.used j = false := hn.1
    obtain ⟨hS, hSroot, hSnn⟩ := hI.shift hone hroot h.seen_ok hn
    have hr : ((s.relax c i f).shift d).reach j = some 0 := by
      rw [shift_reach (s.relax c i f) d hj, hn.2.1, Option.map_some, sub_self]
    have hV := hS.visit hSroot hSnn hj hr
    refine ⟨d, j, rfl, hj, fun _ => hV, fun i' hi' => ?_⟩
    exact {
      hV.visitRow i' with
      seen_ok := SeenOK.visit (s := (s.relax c i f).shift d) h.seen_ok hi'
      used_matched := by
        intro b hb
        rcases (visit_used ((s.relax c i f).shift d) j b).1 hb with rfl | hb
        · exact ⟨i', hi'⟩
        · exact h.used_matched b hb
      seen := (visitRow_seen _ i' i').2 (.inl rfl)
      before := hi'
      before_used := by
        intro b hb
        exact (visit_used ((s.relax c i f).shift d) j b).2 (.inl (Option.some.inj hb).symm)
      matched := fun _ _ => ⟨j, hi'⟩ }

/-- **A search ends at a free column.** The steps left are as many as the unvisited columns. -/
theorem run_ok (hone : OneToOne rowOf) (hroot : ¬ Matched rowOf root) (fuel : ℕ) :
    ∀ {s i f}, AtRow c rowOf root i f s → s.visited.card + fuel = n →
      ∃ s' j, run c rowOf fuel s i f = some (s', j) ∧ Inv c rowOf root none s' ∧
        s'.used j = true ∧ rowOf j = none := by
  induction fuel with
  | zero =>
    intro s i f h hcard
    obtain ⟨j, hj⟩ := h.exists_unused hone hroot
    -- without steps left there would be no unvisited column
    have hall : s.visited = Finset.univ := Finset.eq_univ_of_card _ (by simpa using hcard)
    have : s.used j = true := (mem_visited s j).1 (hall ▸ Finset.mem_univ j)
    simp [hj] at this
  | succ fuel ih =>
    intro s i f h hcard
    obtain ⟨d, j, hnear, hj, hfree, hrow⟩ := h.step hone hroot
    simp only [run, hnear]
    cases hr : rowOf j with
    | none =>
      exact ⟨_, j, rfl, hfree hr, (visit_used ((s.relax c i f).shift d) j j).2 (.inl rfl), hr⟩
    | some i' =>
      have hcard' := card_visited_visit ((s.relax c i f).shift d) hj
      refine ih (hrow i' hr) ?_
      rw [show ((((s.relax c i f).shift d).visit j).visitRow i').visited.card =
        s.visited.card + 1 from hcard']
      omega

end Search

end TrackFusion.Association
