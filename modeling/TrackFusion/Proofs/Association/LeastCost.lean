import Mathlib
import TrackFusion.Proofs.Association.TotalScore

/-!
# Assignments of least cost

What the solver gives out for a table of costs, and that it comes to an end.

* `Search.run_add`, `WayEnds.exchange_add`: steps beyond the end of a loop change nothing.
* `AddRowHalts`: the search for a row ends at a free column, and so does the way back from it.
* `minimalCost_total`: the cost that is given out is that of the cells.
* `minimalCost_least`: **an assignment of as many cells as fit into the table, at least cost.**
-/

namespace TrackFusion

namespace Assignment

variable {α : Type} {rows cols : ℕ}

/-- The cells that are chosen. -/
def cells (a : Assignment rows cols α) : Finset (Fin rows × Fin cols) :=
  Finset.univ.filter fun q => a.column q.1 = some q.2

@[simp] theorem mem_cells (a : Assignment rows cols α) (q : Fin rows × Fin cols) :
    q ∈ a.cells ↔ a.column q.1 = some q.2 := by
  simp [cells]

theorem pairs_nodup (a : Assignment rows cols α) : a.pairs.Nodup := by
  refine (List.nodup_finRange rows).filterMap ?_
  intro i i' q hq hq'
  obtain ⟨_, -, rfl⟩ := Option.map_eq_some_iff.1 hq
  obtain ⟨_, -, h⟩ := Option.map_eq_some_iff.1 hq'
  exact (congrArg Prod.fst h).symm

theorem toFinset_pairs (a : Assignment rows cols α) : a.pairs.toFinset = a.cells := by
  ext q
  rw [List.mem_toFinset, Association.mem_pairs, mem_cells]

theorem size_eq_card (a : Assignment rows cols α) : a.size = a.cells.card := by
  rw [← toFinset_pairs, List.toFinset_card_of_nodup a.pairs_nodup, size]

theorem sum_pairs [ExactScalar α] (a : Assignment rows cols α) (cost : Mat rows cols α) :
    (a.pairs.map fun q => cost q.1 q.2).sum = TrackFusion.total cost a.cells := by
  rw [TrackFusion.total, ← toFinset_pairs, List.sum_toFinset _ a.pairs_nodup]

end Assignment

namespace Association

variable {n : ℕ}

/-! ### The loops end -/

/-- The way back from a column has at most so many columns. -/
inductive WayEnds (way : Vec n (Option (Fin n))) : ℕ → Fin n → Prop
  | first {k : ℕ} {j : Fin n} : way j = none → WayEnds way (k + 1) j
  | next {k : ℕ} {j b : Fin n} : way j = some b → WayEnds way k b → WayEnds way (k + 1) j

/-- Further steps beyond the end of a way move no row. -/
theorem WayEnds.exchange_add {way : Vec n (Option (Fin n))} {k : ℕ} {j : Fin n}
    (h : WayEnds way k j) (root : Fin n) (more : ℕ) (rowOf : Vec n (Option (Fin n))) :
    Matching.exchange way root (k + more) rowOf j = Matching.exchange way root k rowOf j := by
  induction h generalizing rowOf with
  | first hj => rw [Nat.add_right_comm, Matching.exchange, Matching.exchange, hj]
  | next hj _ ih =>
    rw [Nat.add_right_comm, Matching.exchange, Matching.exchange, hj]
    exact ih _

/-- The ranks of the columns fall along a way. -/
theorem Search.Trail.wayEnds {α : Type} {s : Search n α} (h : s.Trail) {j : Fin n}
    (hj : s.used j = true) : WayEnds s.way n j := by
  obtain ⟨rank, hrank⟩ := h.ordered
  have hall : ∀ k j, s.used j = true → rank j < k → WayEnds s.way k j := by
    intro k
    induction k with
    | zero => exact fun j _ hlt => absurd hlt (Nat.not_lt_zero _)
    | succ k ih =>
      intro j hj hlt
      cases hway : s.way j with
      | none => exact .first hway
      | some b =>
        have := (hrank j hj).2 b hway
        exact .next hway (ih b (h.way_used j b hway) (by omega))
  exact hall n j hj ((hrank j hj).1.trans_le (by simpa using s.visited.card_le_univ))

/-- A search that has ended does not go on with more steps. -/
theorem Search.run_add {α : Type} [Scalar α] {c : Mat n n α} {rowOf : Vec n (Option (Fin n))}
    (more : ℕ) (fuel : ℕ) : ∀ {s : Search n α} {i f p}, Search.run c rowOf fuel s i f = some p →
      Search.run c rowOf (fuel + more) s i f = some p := by
  induction fuel with
  | zero =>
    intro s i f p h
    cases h
  | succ fuel ih =>
    intro s i f p h
    rw [Nat.add_right_comm, Search.run]
    rw [Search.run] at h
    cases hnear : (s.relax c i f).nearest with
    | none => simpa only [hnear] using h
    | some q =>
      simp only [hnear] at h ⊢
      cases hrow : rowOf q.2 with
      | none => simpa only [hrow] using h
      | some i' =>
        simp only [hrow] at h ⊢
        exact ih h

/-- **The loops that add a row come to an end**, each within as many steps as there are columns, and
further steps would change nothing: the search reaches a free column, and the way back from it
ends. -/
def AddRowHalts {α : Type} [Scalar α] (c : Mat n n α) (m : Matching n α) (root : Fin n) : Prop :=
  ∃ s j, m.rowOf j = none ∧ WayEnds s.way n j ∧ ∀ more,
    Search.run c m.rowOf (n + more) (.start m root) root none = some (s, j) ∧
      Matching.exchange s.way root (n + more) m.rowOf j = (Matching.addRow c m root).rowOf

section exact

variable {α : Type} [ExactScalar α] {rows cols : ℕ}

theorem Matching.OK.addRowHalts {c : Mat n n α} {m : Matching n α} (h : m.OK c) {root : Fin n}
    (hroot : ¬ Matched m.rowOf root) : AddRowHalts c m root := by
  obtain ⟨s, j, hrun, hs, hj, hfree⟩ := h.run_start hroot
  have hway := hs.toTrail.wayEnds hj
  refine ⟨s, j, hfree, hway, fun more => ⟨Search.run_add more n hrun, ?_⟩⟩
  rw [hway.exchange_add, Matching.addRow, hrun]

/-- Every row is added in finitely many steps. -/
theorem foldl_addRow_halts (c : Mat n n α) {l : List (Fin n)} {root : Fin n}
    (hl : (l ++ [root]).Nodup) : AddRowHalts c (l.foldl (Matching.addRow c) .initial) root := by
  obtain ⟨hl, -, hroot⟩ := List.nodup_append.1 hl
  obtain ⟨hok, hmem⟩ := Matching.foldl_addRow_ok (c := c) l hl
  refine hok.addRowHalts ?_
  rw [hmem]
  exact fun h => hroot root h root (by simp) rfl

/-! ### The cost -/

/-- A cell in a row that had none before. -/
theorem total_setCell {a : Assignment rows cols α} (cost : Mat rows cols α) {i j : Fin n}
    (ha : a.total = total cost a.cells) (hnew : ∀ i', i'.val = i.val → a.column i' = none) :
    (Matching.setCell cost a i j).total = total cost (Matching.setCell cost a i j).cells := by
  rw [Matching.setCell]
  split
  · next h =>
    have hcells : (⟨a.column.set ⟨i, h.1⟩ (some ⟨j, h.2⟩), a.total + cost ⟨i, h.1⟩ ⟨j, h.2⟩⟩ :
        Assignment rows cols α).cells = insert (⟨i, h.1⟩, ⟨j, h.2⟩) a.cells := by
      ext ⟨i', j'⟩
      rw [Assignment.mem_cells, Finset.mem_insert, Assignment.mem_cells, Prod.mk.injEq,
        Vec.set_apply]
      by_cases hi : (⟨i, h.1⟩ : Fin rows) = i'
      · subst hi
        simp [hnew, eq_comm]
      · simp [hi, Ne.symm hi]
    have hnot : (⟨i, h.1⟩, ⟨j, h.2⟩) ∉ a.cells := by simp [hnew]
    rw [hcells, total, Finset.sum_insert hnot, add_comm, ha, total]
  · exact ha

theorem total_foldl_addCell {m : Matching n α} (hone : OneToOne m.rowOf) (cost : Mat rows cols α)
    (l : List (Fin n)) (hl : l.Nodup) :
    (l.foldl (m.addCell cost) .empty).total =
      total cost (l.foldl (m.addCell cost) .empty).cells := by
  induction l using List.reverseRecOn with
  | nil =>
    have hcells : (Assignment.empty : Assignment rows cols α).cells = ∅ := by
      ext q
      simp [Assignment.empty]
    rw [List.foldl_nil, hcells]
    rfl
  | append_singleton l k ih =>
    obtain ⟨hl, -, hk⟩ := List.nodup_append.1 hl
    rw [List.foldl_append, List.foldl_cons, List.foldl_nil, Matching.addCell]
    cases hrow : m.rowOf k with
    | none => exact ih hl
    | some i =>
      refine total_setCell cost (ih hl) fun i' hi' => ?_
      -- otherwise the row would have another column in the square
      by_contra hcol
      obtain ⟨j', hj'⟩ := Option.ne_none_iff_exists'.1 hcol
      obtain ⟨i₀, j₀, hj₀, hr, hi₀, -⟩ := (Matching.foldl_addCell_column cost hone l i' j').1 hj'
      have : i₀ = i := Fin.ext (hi₀.trans hi')
      exact hk j₀ hj₀ k (by simp) (hone i j₀ k (this ▸ hr) hrow)

/-- The cost that is given out is that of the chosen cells. -/
theorem minimalCost_total {cost : Mat rows cols α} {a : Assignment rows cols α}
    (h : minimalCost cost = .ok a) : a.total = total cost a.cells := by
  have hempty := total_foldl_addCell (m := (.initial : Matching 0 α)) (fun _ i => i.elim0) cost []
    List.nodup_nil
  rw [minimalCost] at h
  split at h
  · cases h
    exact hempty
  · rw [if_pos cost.isFinite_eq] at h
    cases h
    exact total_foldl_addCell (Matching.complete_oneToOne (padded cost)) cost _
      (List.nodup_finRange _)

/-- **The solver ends with an assignment of least cost.** For a table of any shape, every row of the
square is added in finitely many steps. The assignment has no column twice and as many cells as fit
into the table, its cost is that of its cells, and no matching with as many cells costs less. -/
theorem minimalCost_least (cost : Mat rows cols α) :
    (∀ l root, l ++ [root] <+: List.finRange (Nat.max rows cols) →
      AddRowHalts (padded cost) (l.foldl (Matching.addRow (padded cost)) .initial) root) ∧
    ∃ a, minimalCost cost = .ok a ∧ OneToOne a.column ∧ a.size = min rows cols ∧
      a.total = (a.pairs.map fun q => cost q.1 q.2).sum ∧
      ∀ t : Finset (Fin rows × Fin cols), IsMatching t → t.card = min rows cols →
        a.total ≤ total cost t := by
  refine ⟨fun l root hl => ?_, ?_⟩
  · exact foldl_addRow_halts (padded cost) ((List.nodup_finRange _).sublist hl.sublist)
  obtain ⟨a, ha, π, hπ, hmin⟩ := minimalCost_optimal cost
  have hcells : a.cells = tableCells π := by
    ext q
    rw [Assignment.mem_cells, hπ]
  refine ⟨a, ha, oneToOne_of_tableCells hπ, ?_, ?_, fun t ht hcard => ?_⟩
  · rw [a.size_eq_card, hcells, card_tableCells]
  · rw [a.sum_pairs, minimalCost_total ha]
  · obtain ⟨σ, hσ⟩ := exists_subset_tableCells ht
    have ht' : t = tableCells σ := by
      refine Finset.eq_of_subset_of_card_le hσ ?_
      rw [card_tableCells, hcard]
    rw [minimalCost_total ha, hcells, ht']
    exact hmin σ

end exact

end Association

end TrackFusion
