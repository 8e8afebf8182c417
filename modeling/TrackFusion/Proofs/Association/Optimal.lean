import TrackFusion.Proofs.Association.Search

/-!
# Optimality of the assignment

The potentials that the search leaves behind prove that no assignment costs less.

* `exchange_covers`: moving the rows along a way gives one row more a column.
* `addRow_oneToOne`, `minimalCost_oneToOne`: no column is given to two rows, whatever the numbers
  are.
* `Matching.OK`: what holds between two rows; `addRow_ok` is the step.
* `complete_optimal`: the complete matching is a permutation of least cost.
* `minimalCost_optimal`: the same for tables of any shape, filled up to a square.
-/

namespace TrackFusion.Association

variable {n : ℕ}

namespace Matching

/-! ### Exchange along a way -/

/-- The rows in `R` belong to one column each, and no other rows do; the column `hole` does not
count. -/
structure CoversBut (r : Vec n (Option (Fin n))) (R : Fin n → Prop) (hole : Fin n) : Prop where
  row_iff : ∀ i, R i ↔ ∃ x, x ≠ hole ∧ r x = some i
  inj : ∀ i x y, x ≠ hole → y ≠ hole → r x = some i → r y = some i → x = y

/-- The row of `b` moves to the hole, and `b` is the hole from now on. -/
theorem CoversBut.move {r : Vec n (Option (Fin n))} {R : Fin n → Prop} {j b : Fin n}
    (h : CoversBut r R j) (hb : b ≠ j) : CoversBut (r.set j (r b)) R b := by
  constructor
  · intro i
    rw [h.row_iff i]
    constructor
    · rintro ⟨x, hx, hxi⟩
      by_cases hxb : x = b
      · subst hxb
        exact ⟨j, hb.symm, by simp [Vec.set_apply, hxi]⟩
      · exact ⟨x, hxb, by simp [Vec.set_apply, hx.symm, hxi]⟩
    · rintro ⟨x, hx, hxi⟩
      rw [Vec.set_apply] at hxi
      split at hxi
      · exact ⟨b, hb, hxi⟩
      · rename_i hne
        exact ⟨x, Ne.symm hne, hxi⟩
  · intro i x y hx hy hxi hyi
    rw [Vec.set_apply] at hxi hyi
    split at hxi <;> split at hyi
    · rename_i h1 h2
      exact h1.symm.trans h2
    · rename_i _ h2
      exact absurd (h.inj i b y hb (Ne.symm h2) hxi hyi).symm hy
    · rename_i h1 _
      exact absurd (h.inj i x b (Ne.symm h1) hb hxi hyi) hx
    · rename_i h1 h2
      exact h.inj i x y (Ne.symm h1) (Ne.symm h2) hxi hyi

/-- A new row takes the hole. -/
theorem CoversBut.fill {r : Vec n (Option (Fin n))} {R : Fin n → Prop} {j root : Fin n}
    (h : CoversBut r R j) (hroot : ¬ R root) :
    OneToOne (r.set j (some root)) ∧ ∀ i, Matched (r.set j (some root)) i ↔ R i ∨ i = root := by
  have hne : ∀ x, x ≠ j → r x ≠ some root := fun x hx e => hroot ((h.row_iff root).2 ⟨x, hx, e⟩)
  constructor
  · intro i x y hx hy
    rw [Vec.set_apply] at hx hy
    split at hx <;> split at hy
    · rename_i h1 h2
      exact h1.symm.trans h2
    · rename_i _ h2
      cases hx
      exact absurd hy (hne y (Ne.symm h2))
    · rename_i h1 _
      cases hy
      exact absurd hx (hne x (Ne.symm h1))
    · rename_i h1 h2
      exact h.inj i x y (Ne.symm h1) (Ne.symm h2) hx hy
  · intro i
    rw [h.row_iff i]
    constructor
    · rintro ⟨x, hx⟩
      rw [Vec.set_apply] at hx
      split at hx
      · exact .inr (Option.some.inj hx).symm
      · rename_i hxj
        exact .inl ⟨x, Ne.symm hxj, hx⟩
    · rintro (⟨x, hx, hxi⟩ | rfl)
      · exact ⟨x, by simp [Vec.set_apply, hx.symm, hxi]⟩
      · exact ⟨j, by simp [Vec.set_apply]⟩

section exchange

variable {way : Vec n (Option (Fin n))} {root : Fin n} {used : Fin n → Prop} {rank : Fin n → ℕ}

/-- The numbers of the columns fall along a way, so that it ends. -/
theorem exchange_covers (hway : ∀ j, used j → ∀ b, way j = some b → used b ∧ rank b < rank j)
    {R : Fin n → Prop} (hroot : ¬ R root) (fuel : ℕ) :
    ∀ {r j}, used j → rank j < fuel → CoversBut r R j →
      OneToOne (exchange way root fuel r j) ∧
        ∀ i, Matched (exchange way root fuel r j) i ↔ R i ∨ i = root := by
  induction fuel with
  | zero => intro r j _ hlt; omega
  | succ fuel ih =>
    intro r j hj hlt h
    rw [exchange]
    cases hw : way j with
    | none => exact h.fill hroot
    | some b =>
      obtain ⟨hb, hlt'⟩ := hway j hj b hw
      have hbj : b ≠ j := by rintro rfl; omega
      exact ih hb (by omega) (h.move hbj)

/-- A column keeps its row, or gets the row from before it on the way. -/
theorem exchange_entry (hway : ∀ j, used j → ∀ b, way j = some b → used b ∧ rank b < rank j)
    {rowOf : Vec n (Option (Fin n))} (fuel : ℕ) :
    ∀ {r j}, used j → (∀ b, rank b < rank j → r b = rowOf b) →
      ∀ x, exchange way root fuel r j x = r x ∨
        used x ∧ exchange way root fuel r j x = rowBefore root rowOf (way x) := by
  induction fuel with
  | zero => intro r j _ _ x; exact .inl rfl
  | succ fuel ih =>
    intro r j hj hr x
    rw [exchange]
    cases hw : way j with
    | none =>
      by_cases hx : j = x
      · subst hx
        exact .inr ⟨hj, by simp [Vec.set_apply, hw, rowBefore]⟩
      · exact .inl (by simp [Vec.set_apply, hx])
    | some b =>
      obtain ⟨hb, hlt⟩ := hway j hj b hw
      have hset : ∀ y, rank y < rank b → (r.set j (r b)) y = rowOf y := by
        intro y hy
        have hyj : j ≠ y := by rintro rfl; omega
        rw [Vec.set_apply, if_neg hyj, hr y (by omega)]
      rcases ih hb hset x with h | h
      · by_cases hx : j = x
        · subst hx
          refine .inr ⟨hj, ?_⟩
          rw [h, Vec.set_apply, if_pos rfl, hr b hlt, hw, rowBefore]
        · exact .inl (by rw [h, Vec.set_apply, if_neg hx])
      · exact .inr h

end exchange

/-- A search that has ended at a free column: moving the rows along the way to it gives `root` a
column. -/
theorem exchange_trail {α : Type} {s : Search n α} (hs : s.Trail) {rowOf : Vec n (Option (Fin n))}
    (hone : OneToOne rowOf) {root j : Fin n} (hroot : ¬ Matched rowOf root) (hj : s.used j = true)
    (hfree : rowOf j = none) :
    OneToOne (exchange s.way root n rowOf j) ∧
      ∀ i, Matched (exchange s.way root n rowOf j) i ↔ Matched rowOf i ∨ i = root := by
  obtain ⟨rank, hrank⟩ := hs.ordered
  have hway : ∀ j, s.used j = true → ∀ b, s.way j = some b → s.used b = true ∧ rank b < rank j :=
    fun j hj b hb => ⟨hs.way_used j b hb, (hrank j hj).2 b hb⟩
  have hlt : rank j < n := (hrank j hj).1.trans_le (by simpa using s.visited.card_le_univ)
  have hcover : CoversBut rowOf (Matched rowOf) j := by
    constructor
    · intro i
      constructor
      · rintro ⟨x, hx⟩
        exact ⟨x, by rintro rfl; simp [hfree] at hx, hx⟩
      · rintro ⟨x, -, hx⟩
        exact ⟨x, hx⟩
    · intro i x y _ _ hx hy
      exact hone i x y hx hy
  exact exchange_covers hway hroot n hj hlt hcover

/-! ### No column is given twice -/

section oneToOne

variable {α : Type} [Scalar α] (c : Mat n n α)

/-- A row gets a column at most for itself. -/
theorem addRow_oneToOne {m : Matching n α} (hone : OneToOne m.rowOf) {root : Fin n}
    (hroot : ¬ Matched m.rowOf root) :
    OneToOne (addRow c m root).rowOf ∧
      ∀ i, Matched (addRow c m root).rowOf i → Matched m.rowOf i ∨ i = root := by
  cases hrun : Search.run c m.rowOf n (.start m root) root none with
  | none =>
    rw [addRow, hrun]
    exact ⟨hone, fun i hi => .inl hi⟩
  | some p =>
    obtain ⟨s, j⟩ := p
    obtain ⟨hs, hj, hfree⟩ := Search.run_trail n (Search.trail_start m root)
      (by simp [Search.start]) (by simp) hrun
    obtain ⟨hone', hmatched⟩ := exchange_trail hs hone hroot hj hfree
    rw [addRow, hrun]
    exact ⟨hone', fun i => (hmatched i).1⟩

theorem foldl_addRow_oneToOne (l : List (Fin n)) (hl : l.Nodup) :
    OneToOne (l.foldl (addRow c) initial).rowOf ∧
      ∀ i, Matched (l.foldl (addRow c) initial).rowOf i → i ∈ l := by
  induction l using List.reverseRecOn with
  | nil => exact ⟨by simp [initial, OneToOne], by simp [initial, Matched]⟩
  | append_singleton l i ih =>
    obtain ⟨hl, -, hi⟩ := List.nodup_append.1 hl
    obtain ⟨hone, hmem⟩ := ih hl
    rw [List.foldl_append, List.foldl_cons, List.foldl_nil]
    obtain ⟨hone', hmem'⟩ := addRow_oneToOne c hone fun h => hi i (hmem i h) i (by simp) rfl
    refine ⟨hone', fun k hk => List.mem_append.2 ?_⟩
    rcases hmem' k hk with hk | rfl
    · exact .inl (hmem k hk)
    · exact .inr (by simp)

theorem complete_oneToOne : OneToOne (complete c).rowOf :=
  (foldl_addRow_oneToOne c (List.finRange n) (List.nodup_finRange n)).1

end oneToOne

/-! ### One row more -/

section ok

variable {α : Type} [ExactScalar α]

/-- What holds of a matching of some rows. -/
structure OK (c : Mat n n α) (m : Matching n α) : Prop where
  one : OneToOne m.rowOf
  /-- The cells of the rows that have a column cost at least their potentials. -/
  feasible : ∀ i, Matched m.rowOf i → ∀ j, m.u i + m.v j ≤ c i j
  /-- The cells that are in use cost as much. -/
  tight : ∀ i j, m.rowOf j = some i → m.u i + m.v j = c i j

theorem initial_ok (c : Mat n n α) : OK c initial where
  one := by simp [initial, OneToOne]
  feasible := by simp [initial, Matched]
  tight := by simp [initial]

/-- The search for a row ends at a free column. -/
theorem OK.run_start {c : Mat n n α} {m : Matching n α} (h : OK c m) {root : Fin n}
    (hroot : ¬ Matched m.rowOf root) :
    ∃ s j, Search.run c m.rowOf n (.start m root) root none = some (s, j) ∧
      Search.Inv c m.rowOf root none s ∧ s.used j = true ∧ m.rowOf j = none :=
  Search.run_ok h.one hroot n (Search.atRow_start h.feasible h.tight root)
    (by simp [Search.visited, Search.start])

theorem addRow_ok {c : Mat n n α} {m : Matching n α} (h : OK c m) {root : Fin n}
    (hroot : ¬ Matched m.rowOf root) :
    OK c (addRow c m root) ∧
      ∀ i, Matched (addRow c m root).rowOf i ↔ Matched m.rowOf i ∨ i = root := by
  obtain ⟨s, j, hrun, hs, hj, hfree⟩ := h.run_start hroot
  simp only [addRow, hrun]
  obtain ⟨rank, hrank⟩ := hs.ordered
  have hway : ∀ j, s.used j = true → ∀ b, s.way j = some b → s.used b = true ∧ rank b < rank j :=
    fun j hj b hb => ⟨hs.way_used j b hb, (hrank j hj).2 b hb⟩
  obtain ⟨hone, hmatched⟩ := exchange_trail hs.toTrail h.one hroot hj hfree
  refine ⟨⟨hone, ?_, ?_⟩, hmatched⟩
  · intro i hi
    rcases (hmatched i).1 hi with hi | rfl
    · exact hs.feasible i hi
    · exact hs.feasible_root j hj
  · -- a cell in use was so before, or lies on the way
    intro i x hx
    rcases exchange_entry hway n hj (fun _ _ => rfl) x with he | ⟨hu, he⟩
    · exact hs.tight i x (he ▸ hx)
    · obtain ⟨i', hi', -, ht⟩ := hs.way_tight x hu
      rw [he, hi'] at hx
      cases hx
      exact ht

theorem foldl_addRow_ok {c : Mat n n α} (l : List (Fin n)) (hl : l.Nodup) :
    OK c (l.foldl (addRow c) initial) ∧
      ∀ i, Matched (l.foldl (addRow c) initial).rowOf i ↔ i ∈ l := by
  induction l using List.reverseRecOn with
  | nil => exact ⟨initial_ok c, by simp [initial, Matched]⟩
  | append_singleton l i ih =>
    obtain ⟨hl, -, hi⟩ := List.nodup_append.1 hl
    obtain ⟨hok, hmem⟩ := ih hl
    rw [List.foldl_append, List.foldl_cons, List.foldl_nil]
    have hi : ¬ Matched (l.foldl (addRow c) initial).rowOf i := by
      rw [hmem]
      intro h
      exact hi i h i (by simp) rfl
    obtain ⟨hok', hmem'⟩ := addRow_ok hok hi
    refine ⟨hok', fun k => ?_⟩
    rw [hmem', hmem]
    simp

/-- **The complete matching is a permutation of least cost.** -/
theorem complete_optimal (c : Mat n n α) :
    ∃ π : Equiv.Perm (Fin n), (∀ i j, (complete c).rowOf j = some i ↔ π i = j) ∧
      ∀ σ : Equiv.Perm (Fin n), ∑ i, c i (π i) ≤ ∑ i, c i (σ i) := by
  obtain ⟨hok, hmem⟩ := foldl_addRow_ok (c := c) (List.finRange n) (List.nodup_finRange n)
  have hall : ∀ i, Matched (complete c).rowOf i := fun i => (hmem i).2 (List.mem_finRange i)
  change OK c (complete c) at hok
  choose col hcol using hall
  have hinj : Function.Injective col := by
    intro i i' e
    have h := hcol i'
    rw [← e, hcol i] at h
    exact Option.some.inj h
  refine ⟨Equiv.ofBijective col (Finite.injective_iff_bijective.1 hinj), ?_, ?_⟩
  · intro i j
    constructor
    · intro h
      exact hok.one i _ _ (hcol i) h
    · rintro rfl
      exact hcol i
  · intro σ
    set π := Equiv.ofBijective col (Finite.injective_iff_bijective.1 hinj)
    calc ∑ i, c i (π i)
        = ∑ i, ((complete c).u i + (complete c).v (π i)) :=
          Finset.sum_congr rfl fun i _ => (hok.tight i _ (hcol i)).symm
      _ = ∑ i, ((complete c).u i + (complete c).v (σ i)) := by
          rw [Finset.sum_add_distrib, Finset.sum_add_distrib,
            Equiv.sum_comp π fun j => (complete c).v j, Equiv.sum_comp σ fun j => (complete c).v j]
      _ ≤ ∑ i, c i (σ i) :=
          Finset.sum_le_sum fun i _ => hok.feasible i ⟨_, hcol i⟩ (σ i)

end ok

/-! ### The cells of the given table -/

section table

variable {α : Type} [Scalar α] {rows cols : ℕ} (m : Matching n α) (cost : Mat rows cols α)

/-- A cell of the square is added, if it is one of the table. -/
def setCell (a : Assignment rows cols α) (i j : Fin n) : Assignment rows cols α :=
  if h : i.val < rows ∧ j.val < cols then
    ⟨a.column.set ⟨i, h.1⟩ (some ⟨j, h.2⟩), a.total + cost ⟨i, h.1⟩ ⟨j, h.2⟩⟩
  else a

/-- One column of `toAssignment`. -/
def addCell (a : Assignment rows cols α) (j : Fin n) : Assignment rows cols α :=
  match m.rowOf j with
  | none => a
  | some i => setCell cost a i j

variable {m}

theorem setCell_column (a : Assignment rows cols α) (i j : Fin n) (i' : Fin rows) (j' : Fin cols) :
    (setCell cost a i j).column i' = some j' ↔
      if i.val = i'.val ∧ j.val < cols then j.val = j'.val else a.column i' = some j' := by
  rw [setCell]
  split
  · rename_i h
    rw [Vec.set_apply]
    by_cases hi : i.val = i'.val
    · rw [if_pos (Fin.ext hi), if_pos ⟨hi, h.2⟩, Option.some_inj, Fin.ext_iff]
    · rw [if_neg fun e => hi (congrArg Fin.val e), if_neg fun e => hi e.1]
  · rename_i h
    rw [if_neg]
    rintro ⟨hi, hj⟩
    exact h ⟨hi ▸ i'.isLt, hj⟩

/-- A row of the table gets the column that belongs to it in the square, if that is in the table. -/
theorem foldl_addCell_column (hone : OneToOne m.rowOf) (l : List (Fin n)) (i : Fin rows)
    (j : Fin cols) :
    (l.foldl (m.addCell cost) .empty).column i = some j ↔
      ∃ i' j' : Fin n, j' ∈ l ∧ m.rowOf j' = some i' ∧ i'.val = i.val ∧ j'.val = j.val := by
  induction l using List.reverseRecOn with
  | nil => simp [Assignment.empty]
  | append_singleton l k ih =>
    rw [List.foldl_append, List.foldl_cons, List.foldl_nil]
    have hmem : (∃ i' j' : Fin n, j' ∈ l ++ [k] ∧ m.rowOf j' = some i' ∧ i'.val = i.val ∧
          j'.val = j.val) ↔
        (l.foldl (m.addCell cost) .empty).column i = some j ∨
          ∃ i', m.rowOf k = some i' ∧ i'.val = i.val ∧ k.val = j.val := by
      rw [ih]
      constructor
      · rintro ⟨i', j', hj', h⟩
        rcases List.mem_append.1 hj' with hj' | hj'
        · exact .inl ⟨i', j', hj', h⟩
        · rw [List.mem_singleton] at hj'
          exact .inr ⟨i', hj' ▸ h⟩
      · rintro (⟨i', j', hj', h⟩ | ⟨i', h⟩)
        · exact ⟨i', j', List.mem_append_left _ hj', h⟩
        · exact ⟨i', k, by simp, h⟩
    rw [hmem, addCell]
    cases hk : m.rowOf k with
    | none => simp
    | some i' =>
      -- a row that had a column before has no other one in the square
      have hold : i'.val = i.val → (l.foldl (m.addCell cost) .empty).column i = some j →
          k.val = j.val := by
        intro hi h
        obtain ⟨i₀, j₀, -, hr, hi₀, hj₀⟩ := ih.1 h
        have : i₀ = i' := Fin.ext (hi₀.trans hi.symm)
        rw [← hj₀, hone i' k j₀ hk (this ▸ hr)]
      rw [setCell_column]
      split
      · rename_i hin
        constructor
        · intro h
          exact .inr ⟨i', rfl, hin.1, h⟩
        · rintro (h | ⟨_, _, _, hj⟩)
          · exact hold hin.1 h
          · exact hj
      · rename_i hin
        constructor
        · exact .inl
        · rintro (h | ⟨_, he, hi', hj⟩)
          · exact h
          · cases he
            exact absurd ⟨hi', hj ▸ j.isLt⟩ hin

theorem toAssignment_column (hone : OneToOne m.rowOf) (i : Fin rows) (j : Fin cols) :
    (m.toAssignment cost).column i = some j ↔
      ∃ i' j' : Fin n, m.rowOf j' = some i' ∧ i'.val = i.val ∧ j'.val = j.val := by
  show ((List.finRange n).foldl (m.addCell cost) .empty).column i = some j ↔ _
  rw [foldl_addCell_column cost hone]
  simp

end table

end Matching

/-! ### Tables of any shape -/

/-- **No column is given to two rows**, whatever the costs are. -/
theorem minimalCost_oneToOne {α : Type} [Scalar α] {rows cols : ℕ} {cost : Mat rows cols α}
    {a : Assignment rows cols α} (h : minimalCost cost = .ok a) : OneToOne a.column := by
  rw [minimalCost] at h
  split at h
  · cases h
    simp [Assignment.empty, OneToOne]
  · split at h
    · cases h
      have hone := Matching.complete_oneToOne (padded cost)
      intro j i i' hi hi'
      obtain ⟨k, l, hkl, hk, hl⟩ := (Matching.toAssignment_column cost hone i j).1 hi
      obtain ⟨k', l', hkl', hk', hl'⟩ := (Matching.toAssignment_column cost hone i' j).1 hi'
      have hll : l = l' := Fin.ext (hl.trans hl'.symm)
      rw [← hll, hkl] at hkl'
      rw [← Option.some.inj hkl', hk] at hk'
      exact Fin.ext hk'
    · cases h

section padded

variable {α : Type} [ExactScalar α] {rows cols : ℕ}

/-- The place of a row of the table in the square. -/
def squareRow (cols : ℕ) (i : Fin rows) : Fin (Nat.max rows cols) :=
  ⟨i, i.isLt.trans_le (Nat.le_max_left ..)⟩

/-- The place of a column of the table in the square. -/
def squareCol (rows : ℕ) (j : Fin cols) : Fin (Nat.max rows cols) :=
  ⟨j, j.isLt.trans_le (Nat.le_max_right ..)⟩

/-- The cells of a permutation of the square that lie in the table. -/
def tableCells (π : Equiv.Perm (Fin (Nat.max rows cols))) : Finset (Fin rows × Fin cols) :=
  Finset.univ.filter fun q => π (squareRow cols q.1) = squareCol rows q.2

@[simp] theorem mem_tableCells (π : Equiv.Perm (Fin (Nat.max rows cols)))
    (q : Fin rows × Fin cols) :
    q ∈ tableCells π ↔ π (squareRow cols q.1) = squareCol rows q.2 := by
  simp [tableCells]

theorem squareRow_inj {i i' : Fin rows} (h : squareRow cols i = squareRow cols i') : i = i' := by
  have : (squareRow cols i).val = (squareRow cols i').val := congrArg Fin.val h
  exact Fin.ext this

theorem squareCol_inj {j j' : Fin cols} (h : squareCol rows j = squareCol rows j') : j = j' := by
  have : (squareCol rows j).val = (squareCol rows j').val := congrArg Fin.val h
  exact Fin.ext this

theorem tableCells_isMatching (π : Equiv.Perm (Fin (Nat.max rows cols))) :
    IsMatching (tableCells π) := by
  constructor
  · intro p hp q hq h
    rw [mem_tableCells] at hp hq
    exact Prod.ext h (squareCol_inj (hp.symm.trans (h ▸ hq)))
  · intro p hp q hq h
    rw [mem_tableCells] at hp hq
    exact Prod.ext (squareRow_inj (π.injective (hp.trans (h ▸ hq.symm)))) h

/-- The cells that fill up the square cost nothing. -/
theorem sum_padded (cost : Mat rows cols α) (π : Equiv.Perm (Fin (Nat.max rows cols))) :
    ∑ i, padded cost i (π i) = total cost (tableCells π) := by
  symm
  refine Finset.sum_of_injOn (fun q => squareRow cols q.1) ?_ (fun _ _ => by simp) ?_ ?_
  · intro p hp q hq h
    exact (tableCells_isMatching π).row p hp q hq (squareRow_inj h)
  · intro i _ hi
    rw [padded, Mat.ofFn_apply, dif_neg]
    rintro ⟨hr, hc⟩
    refine hi ⟨(⟨i, hr⟩, ⟨π i, hc⟩), ?_, rfl⟩
    simp only [Finset.mem_coe, mem_tableCells]
    rfl
  · intro q hq
    rw [mem_tableCells] at hq
    rw [hq, padded, Mat.ofFn_apply, dif_pos ⟨q.1.isLt, q.2.isLt⟩]
    rfl

/-- As many cells of a permutation lie in the table as fit into it. -/
theorem card_tableCells (π : Equiv.Perm (Fin (Nat.max rows cols))) :
    (tableCells π).card = min rows cols := by
  have hM := tableCells_isMatching π
  rcases Nat.le_total rows cols with h | h
  · have : (tableCells π).card = (Finset.univ : Finset (Fin rows)).card := by
      refine Finset.card_bij (fun q _ => q.1) (fun _ _ => Finset.mem_univ _) hM.row ?_
      intro i _
      have hlt : (π (squareRow cols i)).val < cols :=
        (π (squareRow cols i)).isLt.trans_eq (Nat.max_eq_right h)
      exact ⟨(i, ⟨_, hlt⟩), by simp [squareCol], rfl⟩
    simp [this, h]
  · have : (tableCells π).card = (Finset.univ : Finset (Fin cols)).card := by
      refine Finset.card_bij (fun q _ => q.2) (fun _ _ => Finset.mem_univ _) hM.col ?_
      intro j _
      have hlt : (π.symm (squareCol rows j)).val < rows :=
        (π.symm (squareCol rows j)).isLt.trans_eq (Nat.max_eq_left h)
      exact ⟨(⟨_, hlt⟩, j), by simp [squareRow], rfl⟩
    simp [this, h]

/-- Every matching can be filled up to a permutation of the square. -/
theorem exists_subset_tableCells {s : Finset (Fin rows × Fin cols)} (hs : IsMatching s) :
    ∃ π : Equiv.Perm (Fin (Nat.max rows cols)), s ⊆ tableCells π := by
  classical
  let f : Fin (Nat.max rows cols) → Fin (Nat.max rows cols) := fun k =>
    if h : ∃ q ∈ s, squareRow cols q.1 = k then squareCol rows h.choose.2 else k
  have hf : ∀ q ∈ s, f (squareRow cols q.1) = squareCol rows q.2 := by
    intro q hq
    have h : ∃ q' ∈ s, squareRow cols q'.1 = squareRow cols q.1 := ⟨q, hq, rfl⟩
    have hrow := hs.row _ h.choose_spec.1 q hq (squareRow_inj h.choose_spec.2)
    simp only [f, dif_pos h]
    rw [hrow]
  have hinj : Set.InjOn f (s.image fun q => squareRow cols q.1) := by
    intro k hk k' hk' h
    simp only [Finset.coe_image, Set.mem_image, Finset.mem_coe] at hk hk'
    obtain ⟨q, hq, rfl⟩ := hk
    obtain ⟨q', hq', rfl⟩ := hk'
    rw [hf q hq, hf q' hq'] at h
    rw [hs.col q hq q' hq' (squareCol_inj h)]
  obtain ⟨g, hg⟩ := Finset.exists_equiv_extend_of_card_eq (t := Finset.univ) (by simp)
    (Finset.subset_univ _) hinj
  refine ⟨g.trans (Equiv.subtypeUnivEquiv Finset.mem_univ), fun q hq => ?_⟩
  rw [mem_tableCells, ← hf q hq]
  exact hg _ (Finset.mem_image_of_mem _ hq)

/-- **An assignment of least cost**, for a table of any shape: its cells are those of a permutation
of the square, and no such cells cost less. -/
theorem minimalCost_optimal (cost : Mat rows cols α) :
    ∃ a, minimalCost cost = .ok a ∧ ∃ π : Equiv.Perm (Fin (Nat.max rows cols)),
      (∀ i j, a.column i = some j ↔ (i, j) ∈ tableCells π) ∧
      ∀ σ : Equiv.Perm (Fin (Nat.max rows cols)),
        total cost (tableCells π) ≤ total cost (tableCells σ) := by
  by_cases h0 : rows = 0 ∨ cols = 0
  · have hempty : ∀ s : Finset (Fin rows × Fin cols), total cost s = 0 := by
      intro s
      refine Finset.sum_eq_zero fun q _ => ?_
      rcases h0 with rfl | rfl
      · exact q.1.elim0
      · exact q.2.elim0
    refine ⟨.empty, by rw [minimalCost, if_pos h0], 1, ?_, fun σ => by rw [hempty, hempty]⟩
    intro i j
    rcases h0 with rfl | rfl
    · exact i.elim0
    · exact j.elim0
  · obtain ⟨π, hπ, hmin⟩ := Matching.complete_optimal (padded cost)
    have hone := Matching.complete_oneToOne (padded cost)
    refine ⟨_, by rw [minimalCost, if_neg h0, if_pos cost.isFinite_eq], π, ?_, ?_⟩
    · intro i j
      rw [Matching.toAssignment_column cost hone, mem_tableCells, ← hπ]
      constructor
      · rintro ⟨i', j', h, hi, hj⟩
        rwa [← show i' = squareRow cols i from Fin.ext hi,
          ← show j' = squareCol rows j from Fin.ext hj]
      · intro h
        exact ⟨_, _, h, rfl, rfl⟩
    · intro σ
      rw [← sum_padded, ← sum_padded]
      exact hmin σ

end padded

end TrackFusion.Association
