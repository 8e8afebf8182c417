import TrackFusion.Proofs.Geometry.Hulls

/-!
# Chains over a vertical line

The vertical line is the axis of the ordinates. A chain that comes from the left keeps at most two of
the points on the axis, the lowest one and the one that comes last, and a chain that begins there has
the first one and perhaps the last one. So their order matters at the ends of a chain only.

* `foldl_push_axis`: chains that come from the left.
* `chain_of_axis`: chains that begin on the axis.
* `Blocks`: points to the left of the axis, on it, and to the right of it; with points on both sides,
  the order of those on the axis does not matter (`chain_both`).
* `halfTurn`: half a turn takes the chain there to the chain back.
-/

namespace TrackFusion

open Point (cross)

variable {α : Type} [ExactScalar α]

/-! ### Turns at a vertical line -/

section turns

variable {o a b : Point α}

/-- Seen from the left, a point of the axis is to the left of one below it. -/
theorem cross_le_zero_iff_of_left (ho : o.x < 0) (ha : a.x = 0) (hb : b.x = 0) :
    cross o a b ≤ 0 ↔ b.y ≤ a.y := by
  have hcross : cross o a b = -o.x * (b.y - a.y) := by
    rw [cross, ha, hb]
    ring
  rw [hcross, mul_nonpos_iff_pos_imp_nonpos, sub_nonpos]
  exact ⟨fun h => h.1 (neg_pos.2 ho), fun h => ⟨fun _ => h, fun _ => by linarith⟩⟩

/-- On the way up the axis, what is on its right is to the right. -/
theorem cross_le_zero_iff_of_right (ho : o.x = 0) (ha : a.x = 0) (hb : 0 < b.x) :
    cross o a b ≤ 0 ↔ o.y ≤ a.y := by
  have hcross : cross o a b = -(b.x * (a.y - o.y)) := by
    rw [cross, ho, ha]
    ring
  rw [hcross, neg_nonpos]
  constructor
  · intro h
    have := nonneg_of_mul_nonneg_right h hb
    linarith
  · intro h
    exact mul_nonneg hb.le (sub_nonneg.2 h)

/-- The axis does not turn. -/
theorem cross_axis (ho : o.x = 0) (ha : a.x = 0) (hb : b.x = 0) : cross o a b = 0 := by
  rw [cross, ho, ha, hb]
  ring

end turns

namespace Polygon

/-! ### Chains that come from the left -/

/-- A chain on the left of the axis, last point first. -/
structure IsLeft (c : List (Point α)) : Prop where
  ne_nil : c ≠ []
  left : ∀ p ∈ c, p.x < 0
  sorted : c.Pairwise fun q p => p.x ≤ q.x

variable {c : List (Point α)} {m p z : Point α}

theorem push_axis (hc : IsLeft c) (hz : z.x = 0) (hp : p.x = 0) :
    push p (z :: c) = if p.y ≤ z.y then push p c else p :: z :: c := by
  obtain ⟨a, rest, rfl⟩ := List.exists_cons_of_ne_nil hc.ne_nil
  rw [push]
  exact if_congr (cross_le_zero_iff_of_left (hc.left a (by simp)) hz hp) rfl rfl

/-- Of three points on the axis the middle one goes. -/
theorem push_axis_two (hm : m.x = 0) (hz : z.x = 0) (hp : p.x = 0) :
    push p (z :: m :: c) = push p (m :: c) := by
  rw [push, if_pos (cross_axis hm hz hp).le]

theorem IsLeft.of_cons {a b : Point α} (h : IsLeft (b :: a :: c)) : IsLeft (a :: c) :=
  ⟨List.cons_ne_nil a c, fun p hp => h.left p (List.mem_cons_of_mem b hp), h.sorted.of_cons⟩

/-- What a point of the axis drops, a lower one drops, too. -/
theorem push_push (hc : IsLeft c) (hm : m.x = 0) (hp : p.x = 0) (hle : p.y ≤ m.y) :
    push p (push m c) = push p c := by
  fun_induction push m c with
  | case1 b a rest hturn ih =>
    -- from the left, a lower point is further to the right of the line
    have hab : a.x ≤ b.x := (List.pairwise_cons.1 hc.sorted).1 a (by simp)
    have hlower : cross a b p ≤ cross a b m := by
      have hdiff : cross a b m - cross a b p = (b.x - a.x) * (m.y - p.y) := by
        rw [cross, cross, hm, hp]
        ring
      have := mul_nonneg (sub_nonneg.2 hab) (sub_nonneg.2 hle)
      linarith
    rw [ih hc.of_cons, push.eq_1 p b a rest, if_pos (hlower.trans hturn)]
  | case2 b a rest hturn => rw [push_axis hc hm hp, if_pos hle]
  | case3 c hshort => rw [push_axis hc hm hp, if_pos hle]

/-- A point that is pushed lands on a chain on the left. -/
theorem exists_push_left (hc : IsLeft c) (m : Point α) :
    ∃ c', IsLeft c' ∧ c'.Sublist c ∧ push m c = m :: c' := by
  fun_induction push m c with
  | case1 b a rest hturn ih =>
    obtain ⟨c', hc', hsub, heq⟩ := ih hc.of_cons
    exact ⟨c', hc', hsub.cons b, heq⟩
  | case2 b a rest hturn => exact ⟨_, hc, List.Sublist.refl _, rfl⟩
  | case3 c hshort => exact ⟨c, hc, List.Sublist.refl _, rfl⟩

/-- The lower of two points. -/
def lower (m p : Point α) : Point α := if p.y ≤ m.y then p else m

/-- The chain after some points of the axis, with `m` the lowest and `z` the last of them. -/
def overAxis (c : List (Point α)) (m z : Point α) : List (Point α) :=
  if z.y ≤ m.y then push m c else z :: push m c

theorem push_overAxis (hc : IsLeft c) (hm : m.x = 0) (hz : z.x = 0) (hp : p.x = 0) :
    push p (overAxis c m z) = overAxis c (lower m p) p := by
  have hpush : push p (push m c) = overAxis c (lower m p) p := by
    obtain ⟨c', hc', -, heq⟩ := exists_push_left hc m
    rw [overAxis, lower]
    split
    · rw [push_push hc hm hp ‹_›, if_pos le_rfl]
    · rw [heq, push_axis hc' hm hp, if_neg ‹_›]
  rw [overAxis]
  split
  · exact hpush
  · obtain ⟨c', -, -, heq⟩ := exists_push_left hc m
    rw [heq, push_axis_two hm hz hp, ← heq, hpush]

theorem lower_axis (hm : m.x = 0) (hp : p.x = 0) : (lower m p).x = 0 := by
  rw [lower]
  split <;> assumption

theorem foldl_overAxis (hc : IsLeft c) {v : List (Point α)} (hv : ∀ p ∈ v, p.x = 0) (hm : m.x = 0)
    (hz : z.x = 0) : v.foldl (fun c p => push p c) (overAxis c m z) =
      overAxis c (v.foldl lower m) (v.getLastD z) := by
  induction v generalizing m z with
  | nil => rfl
  | cons p v ih =>
    have hp := hv p (by simp)
    rw [List.foldl_cons, push_overAxis hc hm hz hp,
      ih (fun q hq => hv q (List.mem_cons_of_mem p hq)) (lower_axis hm hp) hp, List.foldl_cons,
      List.getLastD_cons]

/-- A lowest one of some points. -/
structure IsLowest (v : List (Point α)) (m : Point α) : Prop where
  mem : m ∈ v
  le : ∀ p ∈ v, m.y ≤ p.y

theorem isLowest_foldl (a : Point α) (v : List (Point α)) :
    IsLowest (a :: v) (v.foldl lower a) := by
  induction v generalizing a with
  | nil => exact ⟨List.mem_singleton_self a, fun p hp => (List.mem_singleton.1 hp ▸ le_rfl)⟩
  | cons p v ih =>
    obtain ⟨hmem, hle⟩ := ih (lower a p)
    have hlower : (lower a p).y ≤ a.y ∧ (lower a p).y ≤ p.y ∧ (lower a p = a ∨ lower a p = p) := by
      rw [lower]
      split
      · exact ⟨‹_›, le_rfl, .inr rfl⟩
      · exact ⟨le_rfl, (not_le.1 ‹_›).le, .inl rfl⟩
    obtain ⟨hlea, hlep, heq⟩ := hlower
    constructor
    · rw [List.foldl_cons]
      grind
    · intro q hq
      rw [List.foldl_cons]
      have := hle (lower a p) (by simp)
      rcases List.mem_cons.1 hq with rfl | hq
      · linarith
      · rcases List.mem_cons.1 hq with rfl | hq
        · linarith
        · exact hle q (List.mem_cons_of_mem _ hq)

theorem IsLowest.eq {v : List (Point α)} {m m' : Point α} (h : IsLowest v m) (h' : IsLowest v m')
    (hv : ∀ p ∈ v, p.x = 0) : m = m' :=
  Point.ext ((hv m h.mem).trans (hv m' h'.mem).symm) (le_antisymm (h.le m' h'.mem) (h'.le m h.mem))

/-- **A chain over the axis** depends on the lowest and the last of the points. -/
theorem foldl_push_axis (hc : IsLeft c) {v : List (Point α)} (hv : ∀ p ∈ v, p.x = 0)
    (hm : IsLowest v m) (hz : v.getLast? = some z) :
    v.foldl (fun c p => push p c) c = overAxis c m z := by
  obtain ⟨a, v, rfl⟩ := List.exists_cons_of_ne_nil (List.ne_nil_of_mem hm.mem)
  have ha := hv a (by simp)
  have hfirst : push a c = overAxis c a a := (if_pos le_rfl).symm
  have hlast : v.getLastD a = z := by
    rwa [List.getLast?_cons, Option.some_inj, ← List.getLastD_eq_getLast?] at hz
  rw [List.foldl_cons, hfirst,
    foldl_overAxis hc (fun q hq => hv q (List.mem_cons_of_mem a hq)) ha ha, hlast,
    (isLowest_foldl a v).eq hm hv]

/-- What is pushed from the right of the axis meets the lowest point. -/
theorem push_right {q : Point α} (hc : IsLeft c) (hm : m.x = 0) (hz : z.x = 0) (hq : 0 < q.x)
    (hmz : m.y ≤ z.y) : push q (overAxis c m z) = push q (push m c) := by
  rw [overAxis]
  split
  · rfl
  · obtain ⟨c', -, -, heq⟩ := exists_push_left hc m
    rw [heq, push, if_pos ((cross_le_zero_iff_of_right hm hz hq).2 hmz)]

/-! ### Chains that begin on the axis -/

theorem foldl_axis_two {a : Point α} {v : List (Point α)} (ha : a.x = 0) (hz : z.x = 0)
    (hv : ∀ p ∈ v, p.x = 0) :
    v.foldl (fun c p => push p c) [z, a] = [v.getLastD z, a] := by
  induction v generalizing z with
  | nil => rfl
  | cons p v ih =>
    have hp := hv p (by simp)
    rw [List.foldl_cons, push_axis_two ha hz hp, List.getLastD_cons]
    exact ih hp fun q hq => hv q (List.mem_cons_of_mem p hq)

/-- What is to the left of the first step of a chain leaves it there. -/
theorem push_bottom {a q : Point α} (hturn : 0 < cross a z q) (s : List (Point α)) :
    push q (s ++ [z, a]) = push q (s ++ [z]) ++ [a] := by
  induction s with
  | nil =>
    rw [List.nil_append, push, if_neg hturn.not_ge]
    rfl
  | cons b s ih =>
    rcases s with _ | ⟨b', s⟩
    · simp only [List.cons_append, List.nil_append, push, if_neg hturn.not_ge]
      split <;> rfl
    · simp only [List.cons_append] at ih ⊢
      rw [push.eq_1, push.eq_1]
      split
      · exact ih
      · simp

theorem foldl_push_bottom {a : Point α} {r : List (Point α)} (hturn : ∀ q ∈ r, 0 < cross a z q)
    (s : List (Point α)) :
    r.foldl (fun c p => push p c) (s ++ [z, a]) =
      r.foldl (fun c p => push p c) (s ++ [z]) ++ [a] := by
  induction r generalizing s with
  | nil => simp
  | cons q r ih =>
    obtain ⟨s', -, heq⟩ := exists_push q z s
    have hpush := push_bottom (hturn q (by simp)) s
    rw [heq, List.cons_append, List.append_assoc, List.singleton_append] at hpush
    rw [List.foldl_cons, List.foldl_cons, hpush, heq]
    exact ih (fun q hq => hturn q (by simp [hq])) (q :: s')

/-- **A chain that begins on the axis** goes to the right from the first point, or from the last
one if that is below the first. -/
theorem chain_of_axis {a : Point α} {v r : List (Point α)} (hv : ∀ p ∈ v, p.x = 0)
    (hr : ∀ p ∈ r, 0 < p.x) (hne : r ≠ []) (ha : v.head? = some a) (hz : v.getLast? = some z) :
    chain (v ++ r) = if a.y ≤ z.y then chain (a :: r) else a :: chain (z :: r) := by
  obtain ⟨q, r, rfl⟩ := List.exists_cons_of_ne_nil hne
  obtain ⟨v, rfl⟩ := List.head?_eq_some_iff.1 ha
  have hax := hv a (by simp)
  have hq := hr q (by simp)
  have hzx := hv z (List.mem_of_getLast? hz)
  have hlast : v.getLastD a = z := by
    rwa [List.getLast?_cons, Option.some_inj, ← List.getLastD_eq_getLast?] at hz
  -- the points on the axis have made a chain of their first one and their last one
  have hfirst : push q ((a :: v).foldl (fun c p => push p c) []) =
      if a.y ≤ z.y then [q, a] else [q, z, a] := by
    rcases v with _ | ⟨p, v⟩
    · obtain rfl : a = z := hlast
      rw [if_pos le_rfl]
      rfl
    · have hp := hv p (by simp)
      have htwo : (a :: p :: v).foldl (fun c p => push p c) [] = [z, a] := by
        rw [← hlast, List.getLastD_cons]
        exact foldl_axis_two hax hp fun b hb => hv b (by simp [hb])
      rw [htwo, push]
      exact if_congr (cross_le_zero_iff_of_right hax hzx hq) rfl rfl
  rw [chain, List.foldl_append, List.foldl_cons, hfirst]
  split
  · rfl
  · rename_i hbelow
    have hturn : ∀ b ∈ r, 0 < cross a z b := fun b hb =>
      not_le.1 (mt (cross_le_zero_iff_of_right hax hzx (hr b (by simp [hb]))).1 hbelow)
    have hbottom := foldl_push_bottom hturn [q]
    rw [List.singleton_append, List.singleton_append] at hbottom
    rw [hbottom, List.reverse_append]
    rfl

/-! ### Three blocks of points -/

/-- Points to the left of the axis, on it, and to the right of it, in the order of their
abscissas. -/
structure Blocks (l v r : List (Point α)) : Prop where
  left : ∀ p ∈ l, p.x < 0
  axis : ∀ p ∈ v, p.x = 0
  right : ∀ p ∈ r, 0 < p.x
  left_sorted : l.Pairwise fun p q => p.x ≤ q.x
  right_sorted : r.Pairwise fun p q => p.x ≤ q.x

variable {l v w r : List (Point α)} {a M : Point α}

theorem Blocks.isLeft (h : Blocks l v r) (hl : l ≠ []) :
    IsLeft (l.foldl (fun c p => push p c) []) := by
  have hsub := foldl_push_sublist l []
  rw [List.append_nil] at hsub
  refine ⟨?_, fun p hp => h.left p (List.mem_reverse.1 (hsub.subset hp)),
    (List.pairwise_reverse.2 h.left_sorted).sublist hsub⟩
  obtain ⟨b, l, rfl⟩ := List.exists_cons_of_ne_nil hl
  obtain ⟨s, -, heq⟩ := exists_foldl_push b l []
  have hfold : (b :: l).foldl (fun c p => push p c) [] = s ++ [b] := heq
  rw [hfold]
  exact List.append_ne_nil_of_right_ne_nil s (List.cons_ne_nil b [])

/-- With points on the left, the chain over the axis. -/
theorem chain_left (h : Blocks l v r) (hl : l ≠ []) (hm : IsLowest v m)
    (hz : v.getLast? = some z) :
    chain (l ++ v) = (overAxis (l.foldl (fun c p => push p c) []) m z).reverse := by
  rw [chain, List.foldl_append, foldl_push_axis (h.isLeft hl) h.axis hm hz]

/-- With points on both sides, it does not matter to a chain in which order those on the axis
come. -/
theorem chain_both (h : Blocks l v r) (hw : ∀ p ∈ w, p.x = 0) (hl : l ≠ []) (hr : r ≠ [])
    (hm : IsLowest v m) (hm' : IsLowest w m) : chain (l ++ v ++ r) = chain (l ++ w ++ r) := by
  have hc := h.isLeft hl
  have hpush {u : List (Point α)} (hu : ∀ p ∈ u, p.x = 0) (hm : IsLowest u m) {q : Point α}
      (hq : 0 < q.x) : push q (u.foldl (fun c p => push p c) (l.foldl (fun c p => push p c) [])) =
        push q (push m (l.foldl (fun c p => push p c) [])) := by
    have hne : u ≠ [] := List.ne_nil_of_mem hm.mem
    have hlast := List.getLast?_eq_some_getLast hne
    have hmem := List.mem_of_getLast? hlast
    rw [foldl_push_axis hc hu hm hlast,
      push_right hc (hu m hm.mem) (hu _ hmem) hq (hm.le _ hmem)]
  obtain ⟨q, r, rfl⟩ := List.exists_cons_of_ne_nil hr
  have hq := h.right q (by simp)
  simp only [chain, List.foldl_append, List.foldl_cons]
  rw [hpush h.axis hm hq, hpush hw hm' hq]

end Polygon

/-! ### Half a turn -/

/-- The point opposite with respect to the origin. -/
def Point.opposite (p : Point α) : Point α := ⟨-p.x, -p.y⟩

@[simp] theorem Point.opposite_opposite (p : Point α) : p.opposite.opposite = p :=
  Point.ext (neg_neg p.x) (neg_neg p.y)

theorem Point.cross_opposite (o a b : Point α) :
    cross o.opposite a.opposite b.opposite = cross o a b := by
  simp only [cross, opposite]
  ring

namespace Polygon

variable {l v w r : List (Point α)} {a m z M : Point α}

theorem chain_opposite (ts : List (Point α)) :
    chain (ts.map Point.opposite) = (chain ts).map Point.opposite :=
  chain_map fun o _ a _ b _ => by rw [Point.cross_opposite]

theorem circuit_opposite (ts : List (Point α)) :
    circuit (ts.map Point.opposite) = (circuit ts).map Point.opposite :=
  circuit_map fun o _ a _ b _ => by rw [Point.cross_opposite]

theorem map_opposite_injective :
    Function.Injective (List.map (Point.opposite : Point α → Point α)) :=
  List.map_injective_iff.2 fun p q h => by
    rw [← p.opposite_opposite, h, q.opposite_opposite]

/-- Half a turn of some points. -/
def halfTurn (ts : List (Point α)) : List (Point α) := ts.reverse.map Point.opposite

theorem Blocks.halfTurn (h : Blocks l v r) :
    Blocks (halfTurn r) (halfTurn v) (halfTurn l) := by
  have hmem {ts : List (Point α)} {p : Point α} (hp : p ∈ Polygon.halfTurn ts) :
      ∃ q ∈ ts, q.opposite = p := by
    obtain ⟨q, hq, rfl⟩ := List.mem_map.1 hp
    exact ⟨q, List.mem_reverse.1 hq, rfl⟩
  have hsorted {ts : List (Point α)} (hts : ts.Pairwise fun p q => p.x ≤ q.x) :
      (Polygon.halfTurn ts).Pairwise fun p q => p.x ≤ q.x := by
    rw [Polygon.halfTurn, List.pairwise_map, List.pairwise_reverse]
    exact hts.imp fun hpq => neg_le_neg hpq
  refine ⟨fun p hp => ?_, fun p hp => ?_, fun p hp => ?_, hsorted h.right_sorted,
    hsorted h.left_sorted⟩
  · obtain ⟨q, hq, rfl⟩ := hmem hp
    exact neg_neg_of_pos (h.right q hq)
  · obtain ⟨q, hq, rfl⟩ := hmem hp
    exact neg_eq_zero.2 (h.axis q hq)
  · obtain ⟨q, hq, rfl⟩ := hmem hp
    exact neg_pos.2 (h.left q hq)

theorem halfTurn_append (ts us : List (Point α)) :
    halfTurn (ts ++ us) = halfTurn us ++ halfTurn ts := by
  rw [halfTurn, List.reverse_append, List.map_append]
  rfl

theorem chain_halfTurn (ts : List (Point α)) :
    chain (halfTurn ts) = (chain ts.reverse).map Point.opposite :=
  chain_opposite _

/-- From which end the points are taken decides where the way around begins. -/
theorem isRotated_circuit_reverse (ts : List (Point α)) :
    (circuit ts.reverse).IsRotated (circuit ts) := by
  rcases ends_cases ts with hlen | ⟨b, m, e, rfl⟩
  · match ts, hlen with
    | [], _ => exact List.IsRotated.refl _
    | [a], _ => exact List.IsRotated.refl _
  · obtain ⟨x, -, hx⟩ := exists_chain b e m
    obtain ⟨y, -, hy⟩ := exists_chain e b m.reverse
    have hback : (b :: (m ++ [e])).reverse = e :: (m.reverse ++ [b]) := reverse_ends b e m
    have hcircuit : circuit (b :: (m ++ [e])) = (b :: x) ++ (e :: y) := by
      rw [circuit, hback, hx, hy]
      simp
    have hcircuit' : circuit (e :: (m.reverse ++ [b])) = (e :: y) ++ (b :: x) := by
      rw [circuit, ← hback, List.reverse_reverse, hback, hx, hy]
      simp
    rw [hback, hcircuit, hcircuit']
    exact List.isRotated_append

theorem isRotated_circuit_halfTurn (ts : List (Point α)) :
    (circuit (halfTurn ts)).IsRotated ((circuit ts).map Point.opposite) := by
  rw [halfTurn, circuit_opposite]
  exact (isRotated_circuit_reverse ts).map _

theorem isRotated_halfTurn_iff (ts us : List (Point α)) :
    (circuit (halfTurn ts)).IsRotated (circuit (halfTurn us)) ↔
      (circuit ts).IsRotated (circuit us) := by
  have hts := isRotated_circuit_halfTurn ts
  have hus := isRotated_circuit_halfTurn us
  constructor
  · intro h
    have hmap := ((hts.symm.trans h).trans hus).map Point.opposite
    simpa [List.map_map, Function.comp_def] using hmap
  · intro h
    exact (hts.trans (h.map Point.opposite)).trans hus.symm

end Polygon

end TrackFusion
