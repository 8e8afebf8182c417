import TrackFusion.Proofs.Association.Greedy
import TrackFusion.Proofs.Doubles

/-!
# What the greedy assignment is worth

A matching that competes with the greedy assignment gains at most twice as much: each of its cells
is held back by an assigned one that scores no less, and no assigned cell holds back more than one
cell in its row and one in its column.

* `twins_iff`: of doubles, the zeros are twins, and no others.
* `total_takeAll`: the greedy total is the sum over the assigned cells.
* `total_le_two_mul`: matchings whose cells are held back by others.
* `bestFirst_stable_worth`: the greedy assignment is stable, and worth half of any matching.
-/

namespace TrackFusion.Association

variable {m n : ℕ} {α : Type}

/-- **The twins among doubles** are the two zeros. -/
theorem twins_iff (x y : Float) : Twins x y ↔
    x.toBits.toNat = 0 ∧ y.toBits.toNat = 2 ^ 63 ∨
      x.toBits.toNat = 2 ^ 63 ∧ y.toBits.toNat = 0 := by
  have hpow : Nat.pow 2 63 = 2 ^ 63 := rfl
  have horder : Scalar.order x y ≠ .eq ↔ Binary64.rank x ≠ Binary64.rank y := by
    show compare (Binary64.rank x) (Binary64.rank y) ≠ .eq ↔ _
    rw [Ne, compare_eq_iff_eq]
  have hnumber : ∀ z : Float, z.toBits.toNat = 0 ∨ z.toBits.toNat = 2 ^ 63 → z.isNaN = false := by
    intro z hz
    refine Bool.eq_false_iff.2 fun hnan => ?_
    have hfraction := ((Binary64.isNaN_unpack z.toBits.toBitVec).1 hnan).2
    refine hfraction (BitVec.toNat_inj.1 ?_)
    rw [Binary64.toNat_unpackMantissa, Binary64.fractionField]
    have hz : z.toBits.toBitVec.toNat = 0 ∨ z.toBits.toBitVec.toNat = 2 ^ 63 := hz
    rcases hz with hz | hz
    · rw [hz]
      rfl
    · rw [hz]
      rfl
  rw [Twins, horder, Binary64.le_iff_place, Binary64.le_iff_place]
  simp only [Binary64.place, Binary64.rank, hpow]
  constructor
  · rintro ⟨⟨⟨-, -, hle⟩, -, -, hge⟩, hne⟩
    split at hle <;> split at hle <;> grind
  · rintro (⟨hx, hy⟩ | ⟨hx, hy⟩)
    · have hx' := hnumber x (.inl hx)
      have hy' := hnumber y (.inr hy)
      simp only [hx, hy, hx', hy']
      norm_num
    · have hx' := hnumber x (.inr hx)
      have hy' := hnumber y (.inl hy)
      simp only [hx, hy, hx', hy']
      norm_num

/-! ### Totals -/

/-- The cells that are assigned. -/
def cells (a : Assignment m n α) : Finset (Fin m × Fin n) :=
  Finset.univ.filter fun q => a.column q.1 = some q.2

theorem mem_cells {a : Assignment m n α} {q : Fin m × Fin n} :
    q ∈ cells a ↔ a.column q.1 = some q.2 := by
  simp [cells]

section exact

variable [ExactScalar α]

theorem cells_take {x : Assignment m n α × Vec n Bool} {c : Cell m n α} (h : ¬Blocked x c) :
    cells (take x c).1 = insert (c.row, c.col) (cells x.1) := by
  ext ⟨i, j⟩
  rw [mem_cells, Finset.mem_insert, mem_cells, take_column h, Prod.mk.injEq]
  split
  · rename_i hrow
    subst hrow
    have hfree : x.1.column c.row ≠ some j := fun hj => h (.inl (by rw [hj]; rfl))
    simp [hfree, eq_comm]
  · rename_i hrow
    simp [Ne.symm hrow]

/-- **The greedy total** is the sum over the cells that are taken. -/
theorem total_takeAll (score : Mat m n α) {l : List (Cell m n α)}
    (hl : ∀ c ∈ l, c.score = score c.row c.col) :
    (takeAll l).1.total = total score (cells (takeAll l).1) := by
  induction l using List.reverseRecOn with
  | nil => simp [takeAll, Assignment.empty, cells, total]
  | append_singleton l c ih =>
    have ih := ih fun c' hc' => hl c' (List.mem_append_left _ hc')
    rw [takeAll_append]
    by_cases hb : Blocked (takeAll l) c
    · rw [take_of_blocked hb, ih]
    · have hnew : (c.row, c.col) ∉ cells (takeAll l).1 := fun hmem =>
        hb (.inl (by rw [mem_cells.1 hmem]; rfl))
      have htotal : (take (takeAll l) c).1.total = (takeAll l).1.total + c.score := by
        rw [take, if_neg (by simpa [Blocked] using hb)]
      rw [htotal, cells_take hb, total, Finset.sum_insert hnew, ih, hl c (by simp), add_comm]
      rfl

theorem total_bestFirst (score : Mat m n α) (least : α) :
    (bestFirst score least).total = total score (cells (bestFirst score least)) :=
  total_takeAll score fun c hc => ((mem_candidates score least c).1 (List.mem_mergeSort.1 hc)).1

/-! ### Competing matchings -/

variable {score : Mat m n α} {s t : Finset (Fin m × Fin n)}

/-- Cells that are held back by different ones gain no more than those. -/
theorem total_le_of_injOn (hs : ∀ q ∈ s, 0 ≤ score q.1 q.2)
    {f : Fin m × Fin n → Fin m × Fin n} (hmem : ∀ p ∈ t, f p ∈ s) (hinj : Set.InjOn f t)
    (hle : ∀ p ∈ t, score p.1 p.2 ≤ score (f p).1 (f p).2) : total score t ≤ total score s :=
  calc total score t ≤ ∑ p ∈ t, score (f p).1 (f p).2 := Finset.sum_le_sum hle
    _ = ∑ q ∈ t.image f, score q.1 q.2 :=
        (Finset.sum_image (f := fun q => score q.1 q.2) hinj).symm
    _ ≤ total score s := Finset.sum_le_sum_of_subset_of_nonneg (Finset.image_subset_iff.2 hmem)
        fun q hq _ => hs q hq

/-- **Charging.** If each cell of a matching is held back by a cell of `s` in its row or its column
that scores no less, then the matching gains at most twice as much as `s`. -/
theorem total_le_two_mul (hs : ∀ q ∈ s, 0 ≤ score q.1 q.2) (ht : IsMatching t)
    (hcharge : ∀ p ∈ t, ∃ q ∈ s, (q.1 = p.1 ∨ q.2 = p.2) ∧ score p.1 p.2 ≤ score q.1 q.2) :
    total score t ≤ 2 * total score s := by
  classical
  rcases t.eq_empty_or_nonempty with rfl | ⟨p₀, -⟩
  · rw [total, Finset.sum_empty]
    exact mul_nonneg zero_le_two (Finset.sum_nonneg hs)
  have : Nonempty (Fin m × Fin n) := ⟨p₀⟩
  choose! f hmem hline hle using hcharge
  -- no two cells of a matching are held back in the same row, or in the same column
  have hrow : total score (t.filter fun p => (f p).1 = p.1) ≤ total score s := by
    refine total_le_of_injOn hs (fun p hp => hmem p (Finset.mem_filter.1 hp).1) ?_
      fun p hp => hle p (Finset.mem_filter.1 hp).1
    intro p hp q hq heq
    obtain ⟨hp, hfp⟩ := Finset.mem_filter.1 hp
    obtain ⟨hq, hfq⟩ := Finset.mem_filter.1 hq
    exact ht.row p hp q hq (by rw [← hfp, ← hfq, heq])
  have hcol : total score (t.filter fun p => ¬(f p).1 = p.1) ≤ total score s := by
    refine total_le_of_injOn hs (fun p hp => hmem p (Finset.mem_filter.1 hp).1) ?_
      fun p hp => hle p (Finset.mem_filter.1 hp).1
    intro p hp q hq heq
    obtain ⟨hp, hfp⟩ := Finset.mem_filter.1 hp
    obtain ⟨hq, hfq⟩ := Finset.mem_filter.1 hq
    refine ht.col p hp q hq ?_
    rw [← (hline p hp).resolve_left hfp, ← (hline q hq).resolve_left hfq, heq]
  calc total score t
      = total score (t.filter fun p => (f p).1 = p.1) +
          total score (t.filter fun p => ¬(f p).1 = p.1) :=
        (Finset.sum_filter_add_sum_filter_not t _ _).symm
    _ ≤ total score s + total score s := add_le_add hrow hcol
    _ = 2 * total score s := (two_mul _).symm

end exact

/-- **The greedy assignment is stable, and worth half of any matching.** For doubles it is stable in
the order in which the cells are taken, which is that of their scores unless both zeros are among
them. In exact arithmetic no matching of cells that may be assigned gains more than twice as
much. -/
theorem bestFirst_stable_worth :
    (∀ x y : Float, Twins x y ↔ x.toBits.toNat = 0 ∧ y.toBits.toNat = 2 ^ 63 ∨
      x.toBits.toNat = 2 ^ 63 ∧ y.toBits.toNat = 0) ∧
    (∀ (score : Mat m n Float) (least : Float),
      Stable (fun a b => Cell.order a b = .lt) score least (bestFirst score least) ∧
      ((∀ i j i' j', Admissible score least i j → Admissible score least i' j' →
          ¬Twins (score i j) (score i' j')) →
        Stable Cell.Beats score least (bestFirst score least))) ∧
    ∀ (α : Type) [ExactScalar α] (score : Mat m n α) (least : α), 0 ≤ least →
      Stable Cell.Beats score least (bestFirst score least) ∧
      (bestFirst score least).total = total score (cells (bestFirst score least)) ∧
      ∀ t : Finset (Fin m × Fin n), IsMatching t → (∀ p ∈ t, Admissible score least p.1 p.2) →
        total score t ≤ 2 * (bestFirst score least).total := by
  refine ⟨twins_iff, fun score least => ⟨stable_bestFirst score least, stable_beats⟩, ?_⟩
  intro α _ score least hleast
  have hstable := bestFirst_stable score least
  refine ⟨hstable, total_bestFirst score least, fun t ht hgood => ?_⟩
  rw [total_bestFirst]
  refine total_le_two_mul (fun q hq => ?_) ht fun p hp => ?_
  · exact hleast.trans (hstable.admissible _ _ (mem_cells.1 hq)).2
  · rcases hstable.blocked _ _ (hgood p hp) with hmem | ⟨i, j, hmem, hline, hbeats⟩
    · exact ⟨p, mem_cells.2 hmem, .inl rfl, le_rfl⟩
    · refine ⟨(i, j), mem_cells.2 hmem, hline, ?_⟩
      rcases hbeats with hlt | ⟨⟨hle, -⟩, -⟩
      · exact hlt.le
      · exact hle

/-- Two tracks that share the detection that fits the first one best. -/
def shared {α : Type} [Scalar α] : Mat 2 2 α := .ofRows #v[#v[1, 0.9], #v[0.9, 0]]

/-- To take the best pair first leaves the other two with nothing. Crosswise they gain more, but not
twice as much. -/
theorem bestFirst_stable_worth_shared :
    (∀ i j i' j', ¬Twins ((shared : Mat 2 2 Float) i j) (shared i' j')) ∧
    Stable Cell.Beats (shared : Mat 2 2 Float) 0 (bestFirst shared 0) ∧
    (0 : ℚ) ≤ 0 ∧ IsMatching (m := 2) (n := 2) {(0, 1), (1, 0)} ∧
    (∀ p ∈ ({(0, 1), (1, 0)} : Finset (Fin 2 × Fin 2)),
      Admissible (shared : Mat 2 2 ℚ) 0 p.1 p.2) ∧
    total (shared : Mat 2 2 ℚ) {(0, 1), (1, 0)} = 9 / 5 ∧
    9 / 5 ≤ 2 * (bestFirst (shared : Mat 2 2 ℚ) 0).total := by
  have htwins : ∀ i j i' j', ¬Twins ((shared : Mat 2 2 Float) i j) (shared i' j') := by
    simp only [Twins]
    decide +kernel
  have hmatching : IsMatching (m := 2) (n := 2) {(0, 1), (1, 0)} :=
    ⟨by decide, by decide⟩
  have hgood : ∀ p ∈ ({(0, 1), (1, 0)} : Finset (Fin 2 × Fin 2)),
      Admissible (shared : Mat 2 2 ℚ) 0 p.1 p.2 := by
    simp only [Admissible]
    decide +kernel
  have htotal : total (shared : Mat 2 2 ℚ) {(0, 1), (1, 0)} = 9 / 5 := by decide +kernel
  obtain ⟨-, hdoubles, hexact⟩ := bestFirst_stable_worth (m := 2) (n := 2)
  obtain ⟨-, -, hworth⟩ := hexact ℚ shared 0 le_rfl
  refine ⟨htwins, (hdoubles shared 0).2 fun i j i' j' _ _ => htwins i j i' j', le_rfl, hmatching,
    hgood, htotal, ?_⟩
  rw [← htotal]
  exact hworth _ hmatching hgood

/-- Two tracks whose scores with a detection are the two zeros. -/
def twoZeros : Mat 2 1 Float := .ofRows #v[#v[-0.0], #v[0.0]]

/-- The detection goes to the second track, although both score alike. -/
theorem not_stable_twoZeros : ¬Stable Cell.Beats twoZeros 0 (bestFirst twoZeros 0) := by
  intro h
  have hgood : ∀ i, Admissible twoZeros 0 i 0 := fun i => by
    fin_cases i
    · exact ⟨by decide +kernel, by decide +kernel⟩
    · exact ⟨by decide +kernel, by decide +kernel⟩
  have hahead : ∀ i j, Cell.order ⟨i, j, twoZeros i j⟩ ⟨1, 0, twoZeros 1 0⟩ ≠ .lt := by
    decide +kernel
  have hsecond : (bestFirst twoZeros 0).column 1 = some 0 := by
    rcases bestFirst_ahead (hgood 1) with hmem | ⟨i, j, -, -, hlt⟩
    · exact hmem
    · exact absurd hlt (hahead i j)
  have hfirst : ∀ j, (bestFirst twoZeros 0).column 0 ≠ some j := by
    intro j hj
    obtain rfl : j = 0 := Subsingleton.elim j 0
    exact absurd (h.one 0 0 1 hj hsecond) (by decide)
  rcases h.blocked 0 0 (hgood 0) with hmem | ⟨i, j, hmem, -, hlt | ⟨-, hrow | ⟨rfl, -⟩⟩⟩
  · exact hfirst 0 hmem
  · have hequal : ∀ i j, ¬twoZeros 0 0 < twoZeros i j := by decide +kernel
    exact hequal i j hlt
  · exact absurd hrow (Fin.not_lt_zero i)
  · exact hfirst j hmem

end TrackFusion.Association
