import TrackFusion.Proofs.Geometry.Verticals

/-!
# Ways around points in a wrong order

A hull reads the points from left to right and back again. If those on the axis come in another order
than upwards, this shows only where a chain begins or ends there.

* `Rearranged`: the points on the axis, and their order.
* `circuit_left`: the way around, if there is nothing on the right of the axis.
* `circuit_axis`: the way around, if there is nothing but the axis.
* `isRotated_circuit_iff`: when the way around is that of sorted points.
-/

namespace TrackFusion

namespace Polygon

variable {α : Type} [ExactScalar α] {c l v w r : List (Point α)} {a m z M : Point α}

/-! ### Ways around -/

/-- The points `w` are those of `v` on the axis, sorted from `m` upwards to `M`. -/
structure Rearranged (v w : List (Point α)) (a z m M : Point α) : Prop where
  first : v.head? = some a
  last : v.getLast? = some z
  lowest : w.head? = some m
  highest : w.getLast? = some M
  mem_iff : ∀ p, p ∈ v ↔ p ∈ w
  axis : ∀ p ∈ v, p.x = 0
  bounds : ∀ p ∈ v, m.y ≤ p.y ∧ p.y ≤ M.y

namespace Rearranged

theorem first_mem (h : Rearranged v w a z m M) : a ∈ v := List.mem_of_head? h.first

theorem last_mem (h : Rearranged v w a z m M) : z ∈ v := List.mem_of_getLast? h.last

theorem lowest_mem (h : Rearranged v w a z m M) : m ∈ v :=
  (h.mem_iff m).2 (List.mem_of_head? h.lowest)

theorem highest_mem (h : Rearranged v w a z m M) : M ∈ v :=
  (h.mem_iff M).2 (List.mem_of_getLast? h.highest)

theorem isLowest (h : Rearranged v w a z m M) : IsLowest v m :=
  ⟨h.lowest_mem, fun p hp => (h.bounds p hp).1⟩

/-- Sorted points are the best arrangement of themselves. -/
theorem self (h : Rearranged v w a z m M) : Rearranged w w m M m M :=
  ⟨h.lowest, h.highest, h.lowest, h.highest, fun _ => Iff.rfl,
    fun p hp => h.axis p ((h.mem_iff p).2 hp), fun p hp => h.bounds p ((h.mem_iff p).2 hp)⟩

theorem eq_of_y (h : Rearranged v w a z m M) {p q : Point α} (hp : p ∈ v) (hq : q ∈ v)
    (hy : p.y = q.y) : p = q :=
  Point.ext ((h.axis p hp).trans (h.axis q hq).symm) hy

theorem halfTurn (h : Rearranged v w a z m M) :
    Rearranged (halfTurn v) (halfTurn w) z.opposite a.opposite M.opposite m.opposite := by
  have hmem (p : Point α) (ts : List (Point α)) :
      p ∈ Polygon.halfTurn ts ↔ p.opposite ∈ ts := by
    rw [Polygon.halfTurn, List.mem_map]
    constructor
    · rintro ⟨q, hq, rfl⟩
      rw [Point.opposite_opposite]
      exact List.mem_reverse.1 hq
    · exact fun hp => ⟨p.opposite, List.mem_reverse.2 hp, p.opposite_opposite⟩
  refine ⟨?_, ?_, ?_, ?_, fun p => ?_, fun p hp => ?_, fun p hp => ?_⟩
  · rw [Polygon.halfTurn, List.head?_map, List.head?_reverse, h.last, Option.map_some]
  · rw [Polygon.halfTurn, List.getLast?_map, List.getLast?_reverse, h.first, Option.map_some]
  · rw [Polygon.halfTurn, List.head?_map, List.head?_reverse, h.highest, Option.map_some]
  · rw [Polygon.halfTurn, List.getLast?_map, List.getLast?_reverse, h.lowest, Option.map_some]
  · rw [hmem, hmem, h.mem_iff]
  · exact neg_eq_zero.1 (h.axis _ ((hmem p v).1 hp))
  · obtain ⟨hle, hge⟩ := h.bounds _ ((hmem p v).1 hp)
    exact ⟨neg_le.1 hge, le_neg.1 hle⟩

end Rearranged

/-! ### Nothing on the right -/

/-- The chain back over the points on the left, between its ends. -/
def wayBack (l : List (Point α)) (p : Point α) : List (Point α) :=
  (chain (p :: l.reverse)).tail.dropLast

theorem chain_wayBack (hl : l ≠ []) (p : Point α) :
    ∃ b, chain (p :: l.reverse) = p :: (wayBack l p ++ [b]) ∧ wayBack l p ⊆ l := by
  obtain ⟨b, l, rfl⟩ := List.exists_cons_of_ne_nil hl
  obtain ⟨x, hsub, hx⟩ := exists_chain p b l.reverse
  have hway : wayBack (b :: l) p = x := by
    rw [wayBack, List.reverse_cons, hx]
    simp
  refine ⟨b, by rw [hway, List.reverse_cons, hx], fun q hq => ?_⟩
  rw [hway] at hq
  exact List.mem_cons_of_mem b (List.mem_reverse.1 (hsub.subset hq))

/-- The chain back begins on the axis. -/
theorem chain_back (h : Blocks l v []) (hl : l ≠ []) (hv : Rearranged v w a z m M) :
    chain (l ++ v).reverse =
      if a.y ≤ z.y then chain (z :: l.reverse) else z :: chain (a :: l.reverse) := by
  -- half a turn makes it a chain there, from the axis to the right
  have hturned := h.halfTurn
  have hv' := hv.halfTurn
  have hright : halfTurn l ≠ [] := by simpa [halfTurn] using hl
  have hchain := chain_of_axis hturned.axis hturned.right hright hv'.first hv'.last
  have hcons (p : Point α) :
      chain (p.opposite :: halfTurn l) = (chain (p :: l.reverse)).map Point.opposite :=
    chain_opposite (p :: l.reverse)
  rw [← halfTurn_append, chain_halfTurn, hcons, hcons] at hchain
  refine map_opposite_injective (hchain.trans ?_)
  have hy : z.opposite.y ≤ a.opposite.y ↔ a.y ≤ z.y := neg_le_neg_iff
  by_cases haz : a.y ≤ z.y
  · rw [if_pos haz, if_pos (hy.2 haz)]
  · rw [if_neg haz, if_neg (mt hy.1 haz)]
    rfl

/-- **The way around points on the left and on the axis.** -/
theorem circuit_left (h : Blocks l v []) (hl : l ≠ []) (hv : Rearranged v w a z m M) :
    circuit (l ++ v) = (overAxis (l.foldl (fun c p => push p c) []) m z).reverse ++
      if a.y ≤ z.y then wayBack l z else a :: wayBack l a := by
  rw [circuit, chain_left h hl hv.isLowest hv.last, chain_back h hl hv]
  split
  · rfl
  · obtain ⟨b, hb, -⟩ := chain_wayBack hl a
    rw [hb, List.tail_cons, ← List.cons_append, List.dropLast_concat]

theorem mem_overAxis {p : Point α} (hp : p ∈ overAxis c m z) : p = m ∨ p = z ∨ p ∈ c := by
  rw [overAxis] at hp
  split at hp
  · have := (push_sublist m c).subset hp
    simp only [List.mem_cons] at this
    tauto
  · rcases List.mem_cons.1 hp with rfl | hp
    · exact .inr (.inl rfl)
    · have := (push_sublist m c).subset hp
      simp only [List.mem_cons] at this
      tauto

/-- What the way around has of the axis. -/
theorem eq_of_mem_circuit_left (h : Blocks l v []) (hl : l ≠ []) (hv : Rearranged v w a z m M)
    {p : Point α} (hp : p ∈ circuit (l ++ v)) (haxis : p.x = 0) :
    p = m ∨ p = z ∨ ¬ a.y ≤ z.y ∧ p = a := by
  have hnot : p ∉ l := fun hpl => absurd haxis (h.left p hpl).ne
  rw [circuit_left h hl hv, List.mem_append, List.mem_reverse] at hp
  rcases hp with hp | hp
  · rcases mem_overAxis hp with rfl | rfl | hp
    · exact .inl rfl
    · exact .inr (.inl rfl)
    · have hback := (foldl_push_sublist l []).subset hp
      rw [List.append_nil] at hback
      exact absurd (List.mem_reverse.1 hback) hnot
  · split at hp
    · obtain ⟨-, -, hsub⟩ := chain_wayBack hl z
      exact absurd (hsub hp) hnot
    · rename_i haz
      obtain ⟨-, -, hsub⟩ := chain_wayBack hl a
      rcases List.mem_cons.1 hp with rfl | hp
      · exact .inr (.inr ⟨haz, rfl⟩)
      · exact absurd (hsub hp) hnot

/-- It has the last point of them. -/
theorem last_mem_circuit_left (h : Blocks l v []) (hl : l ≠ []) (hv : Rearranged v w a z m M) :
    z ∈ circuit (l ++ v) := by
  rw [circuit_left h hl hv, List.mem_append, List.mem_reverse, overAxis]
  left
  split
  · rename_i hzm
    obtain rfl : z = m := hv.eq_of_y hv.last_mem hv.lowest_mem
      (le_antisymm hzm (hv.bounds z hv.last_mem).1)
    obtain ⟨c', -, -, heq⟩ := exists_push_left (h.isLeft hl) z
    rw [heq]
    exact List.mem_cons_self
  · exact List.mem_cons_self

/-- **Without points on the right**, the way around is that of sorted points just if the last point
of the axis is the highest, or the first one is and the last one is the lowest. -/
theorem isRotated_left_iff (h : Blocks l v []) (h' : Blocks l w []) (hl : l ≠ [])
    (hv : Rearranged v w a z m M) :
    (circuit (l ++ v)).IsRotated (circuit (l ++ w)) ↔ z = M ∨ a = M ∧ z = m := by
  have hmM := (hv.bounds M hv.highest_mem).1
  constructor
  · intro hrot
    -- the way around sorted points has the highest one, so this one has it, too
    have hhigh := hrot.mem_iff.2 (last_mem_circuit_left h' hl hv.self)
    rcases eq_of_mem_circuit_left h hl hv hhigh (hv.axis M hv.highest_mem) with hM | hM | ⟨haz, hM⟩
    · -- all points of the axis are the same
      left
      refine hv.eq_of_y hv.last_mem hv.highest_mem ?_
      obtain ⟨hle, hge⟩ := hv.bounds z hv.last_mem
      rw [hM] at hge ⊢
      exact le_antisymm hge hle
    · exact .inl hM.symm
    · have hlast := hrot.mem_iff.1 (last_mem_circuit_left h hl hv)
      rcases eq_of_mem_circuit_left h' hl hv.self hlast (hv.axis z hv.last_mem) with
        hz | hz | ⟨hnot, -⟩
      · exact .inr ⟨hM.symm, hz⟩
      · exact .inl hz
      · exact absurd hmM hnot
  · intro hends
    have hw := circuit_left h' hl hv.self
    rw [if_pos hmM] at hw
    by_cases hzM : z = M
    · have hv' := circuit_left h hl hv
      rw [if_pos (hzM ▸ (hv.bounds a hv.first_mem).2), hzM] at hv'
      rw [hv', hw]
    · -- from the highest one to the lowest one, both are kept, one chain later
      obtain ⟨rfl, rfl⟩ := hends.resolve_left hzM
      have hlt : ¬ a.y ≤ z.y := fun hle =>
        hzM (hv.eq_of_y hv.last_mem hv.first_mem (le_antisymm hmM hle))
      have hv' := circuit_left h hl hv
      rw [if_neg hlt, overAxis, if_pos le_rfl] at hv'
      rw [overAxis, if_neg hlt] at hw
      rw [hv', hw, List.reverse_cons, List.append_assoc]
      exact List.IsRotated.refl _

/-- The same without points on the left, by half a turn. -/
theorem isRotated_right_iff (h : Blocks [] v r) (h' : Blocks [] w r) (hr : r ≠ [])
    (hv : Rearranged v w a z m M) :
    (circuit (v ++ r)).IsRotated (circuit (w ++ r)) ↔ a = m ∨ a = M ∧ z = m := by
  have hne : halfTurn r ≠ [] := by simpa [halfTurn] using hr
  have hturned := isRotated_left_iff h.halfTurn h'.halfTurn hne hv.halfTurn
  rw [← halfTurn_append, ← halfTurn_append, isRotated_halfTurn_iff] at hturned
  have hopposite (p q : Point α) : p.opposite = q.opposite ↔ p = q := by
    refine ⟨fun hpq => ?_, congrArg _⟩
    rw [← p.opposite_opposite, hpq, q.opposite_opposite]
  rw [hturned, hopposite, hopposite, hopposite, and_comm]

/-! ### Nothing but the axis -/

/-- On the axis, the first point and the last one are left. -/
theorem circuit_axis (hv : Rearranged v w a z m M) :
    circuit v = if v.length = 1 then [a] else [a, z] := by
  have hfold {u : List (Point α)} {b e : Point α} (hu : ∀ p ∈ u, p.x = 0) (hb : u.head? = some b)
      (he : u.getLast? = some e) (hlen : u.length ≠ 1) : chain u = [b, e] := by
    obtain ⟨u, rfl⟩ := List.head?_eq_some_iff.1 hb
    rcases u with _ | ⟨p, u⟩
    · exact absurd rfl hlen
    · have hlast : (p :: u).getLastD b = e := by
        rwa [List.getLast?_cons, Option.some_inj, ← List.getLastD_eq_getLast?] at he
      have htwo : (b :: p :: u).foldl (fun c p => push p c) [] = [e, b] := by
        rw [← hlast, List.getLastD_cons]
        exact foldl_axis_two (hu b (by simp)) (hu p (by simp)) fun q hq => hu q (by simp [hq])
      rw [chain, htwo]
      rfl
  split
  · rename_i hlen
    obtain ⟨p, rfl⟩ := List.length_eq_one_iff.1 hlen
    obtain rfl : p = a := Option.some_inj.1 hv.first
    rfl
  · rename_i hlen
    have hback : ∀ p ∈ v.reverse, p.x = 0 := fun p hp => hv.axis p (List.mem_reverse.1 hp)
    rw [circuit, hfold hv.axis hv.first hv.last hlen, hfold hback
      (by rw [List.head?_reverse, hv.last]) (by rw [List.getLast?_reverse, hv.first])
      (by rwa [List.length_reverse])]
    rfl

theorem isRotated_pair_iff {β : Type} {a b c d : β} :
    [a, b].IsRotated [c, d] ↔ (a = c ∧ b = d) ∨ (a = d ∧ b = c) := by
  constructor
  · intro h
    have hperm := h.perm
    rcases List.mem_pair.1 (hperm.subset List.mem_cons_self) with rfl | rfl
    · exact .inl ⟨rfl, List.singleton_perm_singleton.1 hperm.cons_inv⟩
    · have hswap := hperm.trans (List.Perm.swap a c [])
      exact .inr ⟨rfl, List.singleton_perm_singleton.1 hswap.cons_inv⟩
  · rintro (⟨rfl, rfl⟩ | ⟨rfl, rfl⟩)
    · exact List.IsRotated.refl _
    · exact List.IsRotated.cons_append_singleton

/-- Of one point, without neighbours that are equal, there is one. -/
theorem length_eq_one_of_mem_iff {β : Type} {v w : List β} (h : ∀ p, p ∈ v ↔ p ∈ w)
    (hwd : w.IsChain (· ≠ ·)) (hlen : v.length = 1) : w.length = 1 := by
  obtain ⟨p, rfl⟩ := List.length_eq_one_iff.1 hlen
  have hall : ∀ q ∈ w, q = p := fun q hq => List.mem_singleton.1 ((h q).2 hq)
  match w, hwd with
  | [], _ => exact absurd ((h p).1 List.mem_cons_self) List.not_mem_nil
  | [q], _ => rfl
  | q :: q' :: w, hwd =>
    have hne := (List.isChain_cons_cons.1 hwd).1
    exact absurd ((hall q (by simp)).trans (hall q' (by simp)).symm) hne

theorem isRotated_axis_iff (hv : Rearranged v w a z m M) (hvd : v.IsChain (· ≠ ·))
    (hwd : w.IsChain (· ≠ ·)) :
    (circuit v).IsRotated (circuit w) ↔ (a = m ∧ z = M) ∨ (a = M ∧ z = m) := by
  rw [circuit_axis hv, circuit_axis hv.self]
  by_cases hlen : v.length = 1
  · have hlen' := length_eq_one_of_mem_iff hv.mem_iff hwd hlen
    rw [if_pos hlen, if_pos hlen']
    obtain ⟨p, rfl⟩ := List.length_eq_one_iff.1 hlen
    have hp {q : Point α} (hq : q ∈ [p]) : q = p := List.mem_singleton.1 hq
    rw [hp hv.first_mem, hp hv.last_mem, hp hv.lowest_mem, hp hv.highest_mem]
    exact iff_of_true (List.IsRotated.refl _) (.inl ⟨rfl, rfl⟩)
  · have hlen' : ¬ w.length = 1 :=
      mt (length_eq_one_of_mem_iff (fun p => (hv.mem_iff p).symm) hvd) hlen
    rw [if_neg hlen, if_neg hlen']
    exact isRotated_pair_iff

/-- **When the way around is right.** Of points that are sorted, but for those on the axis, the way
around is that of sorted points just if the first point of the axis is the lowest, or there are
points on the left, and the last one is the highest, or there are points on the right; or else if the
first one is the highest and the last one is the lowest. -/
theorem isRotated_circuit_iff (h : Blocks l v r) (h' : Blocks l w r) (hv : Rearranged v w a z m M)
    (hvd : v.IsChain (· ≠ ·)) (hwd : w.IsChain (· ≠ ·)) :
    (circuit (l ++ v ++ r)).IsRotated (circuit (l ++ w ++ r)) ↔
      ((l ≠ [] ∨ a = m) ∧ (r ≠ [] ∨ z = M)) ∨ (a = M ∧ z = m) := by
  by_cases hl : l = []
  · subst hl
    by_cases hr : r = []
    · subst hr
      simpa using isRotated_axis_iff hv hvd hwd
    · simpa [hr] using isRotated_right_iff h h' hr hv
  · by_cases hr : r = []
    · subst hr
      simpa [hl] using isRotated_left_iff h h' hl hv
    · have hlow := chain_both h h'.axis hl hr hv.isLowest hv.self.isLowest
      have hhigh : chain (l ++ v ++ r).reverse = chain (l ++ w ++ r).reverse := by
        have hl' : halfTurn l ≠ [] := by simpa [halfTurn] using hl
        have hr' : halfTurn r ≠ [] := by simpa [halfTurn] using hr
        refine map_opposite_injective ?_
        rw [← chain_halfTurn, ← chain_halfTurn]
        have := chain_both h.halfTurn h'.halfTurn.axis hr' hl' hv.halfTurn.isLowest
          hv.halfTurn.self.isLowest
        simpa only [halfTurn_append, List.append_assoc] using this
      have heq : circuit (l ++ v ++ r) = circuit (l ++ w ++ r) := by
        rw [circuit, circuit, hlow, hhigh]
      rw [heq]
      exact iff_of_true (List.IsRotated.refl _) (.inl ⟨.inl hl, .inl hr⟩)

end Polygon

end TrackFusion
