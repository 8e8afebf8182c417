import TrackFusion.Proofs.Geometry.Sides

/-!
# Convex hulls turn left

The two chains of a hull run through the points in order, the one from left to right and the other
one back. What they have in common is that every step of a chain leads into one half of all
directions, so both are treated as one.

* `Half`: half of all directions, closed under sums.
* `Half.cross_trans`: among directions of one half, turning left is transitive.
* `Half.push`, `Half.chain`: chains turn left.
* `Half.left_of_chain`: what is to the left of the line between the two ends of a chain is to the
  left of all its chords.
* `Half.isStrictlyConvex_chains`: two chains that run back and forth turn left all the way around.
* `sorted_pairwise`: the points in order.
* `exists_chains`: a hull is its two chains.
* `isStrictlyConvex_convexHull`: hulls turn left everywhere.
-/

namespace TrackFusion

open Point (cross)

variable {α : Type} [ExactScalar α]

/-! ### Half of all directions -/

/-- Half of all directions: with two of them it has what is between them, and never both a direction
and its opposite. -/
structure Half (H : α → α → Prop) : Prop where
  add : ∀ {a b c d : α}, H a b → H c d → H (a + c) (b + d)
  smul : ∀ {a b t : α}, H a b → 0 < t → H (t * a) (t * b)
  zero : ¬H 0 0

/-- The directions to the right, and straight up. -/
def Rightward (x y : α) : Prop := 0 < x ∨ x = 0 ∧ 0 < y

theorem half_rightward : Half (Rightward : α → α → Prop) where
  add := by
    rintro a b c d (ha | ⟨rfl, hb⟩) (hc | ⟨rfl, hd⟩)
    · exact .inl (add_pos ha hc)
    · exact .inl (by rwa [add_zero])
    · exact .inl (by rwa [zero_add])
    · exact .inr ⟨add_zero 0, add_pos hb hd⟩
  smul := by
    rintro a b t (ha | ⟨rfl, hb⟩) ht
    · exact .inl (mul_pos ht ha)
    · exact .inr ⟨mul_zero t, mul_pos ht hb⟩
  zero := by simp [Rightward]

namespace Half

variable {H : α → α → Prop} (h : Half H) {a b c d t : α}

include h

/-- The opposite directions. -/
theorem opposite : Half fun x y => H (-x) (-y) where
  add := by
    intro a b c d hab hcd
    have := h.add hab hcd
    rwa [neg_add, neg_add]
  smul := by
    intro a b t hab ht
    have := h.smul hab ht
    rwa [← mul_neg, ← mul_neg]
  zero := by
    rw [neg_zero]
    exact h.zero

theorem add_smul (hab : H a b) (hcd : H c d) (ht : 0 ≤ t) : H (a + t * c) (b + t * d) := by
  rcases ht.eq_or_lt with rfl | ht
  · simpa using hab
  · exact h.add hab (h.smul hcd ht)

/-- A multiple that is in the same half is a positive one. -/
theorem pos_of_smul (hab : H a b) (htab : H (t * a) (t * b)) : 0 < t := by
  by_contra ht
  have hzero := h.add_smul htab hab (t := -t) (by linarith)
  rw [neg_mul, neg_mul, add_neg_cancel, add_neg_cancel] at hzero
  exact h.zero hzero

/-- **Turning left is transitive** among the directions of one half. -/
theorem cross_trans {a b c d e f : α} (hab : H a b) (hcd : H c d) (hef : H e f)
    (h₁ : 0 < a * d - b * c) (h₂ : 0 < c * f - d * e) : 0 < a * f - b * e := by
  by_contra hle
  -- otherwise a positive combination of the three directions is none
  have hsum := h.add_smul (h.add (h.smul hab h₂) (h.smul hef h₁)) hcd (t := b * e - a * f)
    (by linarith)
  have hx : (c * f - d * e) * a + (a * d - b * c) * e + (b * e - a * f) * c = 0 := by ring
  have hy : (c * f - d * e) * b + (a * d - b * c) * f + (b * e - a * f) * d = 0 := by ring
  rw [hx, hy] at hsum
  exact h.zero hsum

end Half

/-! ### Chains -/

/-- From `p` to `q` it is a step in one of some directions. -/
def Leads (H : α → α → Prop) (p q : Point α) : Prop := H (q.x - p.x) (q.y - p.y)

theorem leads_opposite {H : α → α → Prop} {p q : Point α} :
    Leads (fun x y => H (-x) (-y)) p q ↔ Leads H q p := by
  rw [Leads, Leads, neg_sub, neg_sub]

/-- A way turns left at all its points. -/
def IsStrictlyConvex (ps : List (Point α)) : Prop := ps.Triplewise fun a b c => 0 < cross a b c

theorem IsStrictlyConvex.isConvex {ps : List (Point α)} (h : IsStrictlyConvex ps) : IsConvex ps :=
  h.imp LT.lt.le

/-- The first point of a chain stays, and the new one is its last point. -/
theorem exists_push (p a : Point α) (s : List (Point α)) :
    ∃ s', s'.Sublist s ∧ Polygon.push p (s ++ [a]) = p :: (s' ++ [a]) := by
  induction s with
  | nil => exact ⟨[], List.Sublist.refl _, rfl⟩
  | cons c s ih =>
    have hkeep : ∃ s', s'.Sublist (c :: s) ∧ p :: (c :: s ++ [a]) = p :: (s' ++ [a]) :=
      ⟨c :: s, List.Sublist.refl _, rfl⟩
    obtain ⟨s', hsub, hpush⟩ := ih
    have hdrop : ∃ s', s'.Sublist (c :: s) ∧ Polygon.push p (s ++ [a]) = p :: (s' ++ [a]) :=
      ⟨s', hsub.cons c, hpush⟩
    rcases s with _ | ⟨b, s⟩
    · rw [List.cons_append, List.nil_append, Polygon.push]
      split
      · exact hdrop
      · exact hkeep
    · rw [List.cons_append, List.cons_append, Polygon.push]
      split
      · exact hdrop
      · exact hkeep

theorem exists_foldl_push (a : Point α) (ps s : List (Point α)) :
    ∃ s', s'.Sublist (ps.reverse ++ s) ∧
      ps.foldl (fun c p => Polygon.push p c) (s ++ [a]) = s' ++ [a] := by
  induction ps generalizing s with
  | nil => exact ⟨s, List.Sublist.refl _, rfl⟩
  | cons p ps ih =>
    obtain ⟨s₁, hsub₁, hpush⟩ := exists_push p a s
    obtain ⟨s₂, hsub₂, hrest⟩ := ih (p :: s₁)
    refine ⟨s₂, ?_, ?_⟩
    · rw [List.reverse_cons, List.append_assoc, List.singleton_append]
      exact hsub₂.trans ((hsub₁.cons_cons p).append_left _)
    · rw [List.foldl_cons, hpush]
      exact hrest

/-- **A chain runs from the first point to the last one**, by way of some of the others. -/
theorem exists_chain (a b : Point α) (ps : List (Point α)) :
    ∃ l, l.Sublist ps ∧ Polygon.chain (a :: (ps ++ [b])) = a :: (l ++ [b]) := by
  obtain ⟨s, hsub, hfold⟩ := exists_foldl_push a ps []
  obtain ⟨s', hsub', hpush⟩ := exists_push b a s
  refine ⟨s'.reverse, ?_, ?_⟩
  · rw [List.append_nil] at hsub
    have hrev := (hsub'.trans hsub).reverse
    rwa [List.reverse_reverse] at hrev
  · have hfirst : Polygon.push a [] = [a] := rfl
    rw [Polygon.chain, List.foldl_cons, hfirst, List.foldl_append]
    rw [List.nil_append] at hfold
    rw [hfold, List.foldl_cons, List.foldl_nil, hpush]
    simp

namespace Half

variable {H : α → α → Prop} (h : Half H)

include h

theorem leads_trans {p q r : Point α} (hpq : Leads H p q) (hqr : Leads H q r) : Leads H p r := by
  have hsum := h.add hpq hqr
  rwa [sub_add_sub_cancel', sub_add_sub_cancel'] at hsum

/-- Of four points that follow each other, if the first and the last three turn left, then so do
those without the third or without the second. -/
theorem cross_of_four {a b c d : Point α} (hab : Leads H a b) (hbc : Leads H b c)
    (hcd : Leads H c d) (habc : 0 < cross a b c) (hbcd : 0 < cross b c d) :
    0 < cross a b d ∧ 0 < cross a c d := by
  have h₁ : 0 < (b.x - a.x) * (c.y - b.y) - (b.y - a.y) * (c.x - b.x) := by
    unfold cross at habc
    linarith
  have h₂ : 0 < (c.x - b.x) * (d.y - c.y) - (c.y - b.y) * (d.x - c.x) := by
    unfold cross at hbcd
    linarith
  have h₃ := h.cross_trans hab hbc hcd h₁ h₂
  unfold cross
  constructor
  · linarith
  · linarith

/-- **A point that a chain is extended by** keeps it turning left. The chain is read from its last
point back. -/
theorem push {p : Point α} {s : List (Point α)} (hs : (p :: s).Pairwise fun q p => Leads H p q)
    (hturn : s.Triplewise fun c b a => 0 < cross a b c) :
    (Polygon.push p s).Triplewise fun c b a => 0 < cross a b c := by
  fun_induction Polygon.push p s with
  | case1 b a rest hle ih =>
    exact ih (hs.sublist ((List.sublist_cons_self b _).cons_cons p))
      (List.triplewise_cons.1 hturn).2
  | case2 b a rest hlt =>
    refine List.triplewise_cons.2 ⟨?_, hturn⟩
    rw [not_le] at hlt
    simp only [List.pairwise_cons, List.mem_cons, forall_eq_or_imp] at hs
    obtain ⟨⟨hbp, hap, hrestp⟩, ⟨hab, hrestb⟩, hresta, hrest⟩ := hs
    simp only [List.triplewise_cons, List.pairwise_cons] at hturn
    obtain ⟨⟨hxab, hxyb⟩, hxya, -⟩ := hturn
    -- seen from the new point, the chain turns where its last two points do
    have hfour : ∀ x ∈ rest, 0 < cross x a p ∧ 0 < cross x b p := fun x hx =>
      h.cross_of_four (hresta x hx) hab hbp (hxab x hx) hlt
    have hpairs : rest.Pairwise fun y x => 0 < cross x y p := by
      refine (hrest.and hxya).imp_of_mem ?_
      rintro y x hy hx ⟨hxy, hxya⟩
      exact (h.cross_of_four hxy (hresta y hy) hap hxya (hfour y hy).1).1
    refine List.pairwise_cons.2 ⟨?_, List.pairwise_cons.2 ⟨fun x hx => (hfour x hx).1, hpairs⟩⟩
    intro x hx
    rcases List.mem_cons.1 hx with rfl | hx
    · exact hlt
    · exact (hfour x hx).2
  | case3 s hshort =>
    rcases s with _ | ⟨b, _ | ⟨a, rest⟩⟩
    · exact List.triplewise_singleton _ _
    · exact List.triplewise_pair _ _ _
    · exact absurd rfl (hshort b a rest)

/-- A chain turns left at all its points. -/
theorem foldl_push {s ps : List (Point α)} (hs : (s.reverse ++ ps).Pairwise (Leads H))
    (hturn : s.Triplewise fun c b a => 0 < cross a b c) :
    (ps.foldl (fun c p => Polygon.push p c) s).Triplewise fun c b a => 0 < cross a b c := by
  induction ps generalizing s with
  | nil => exact hturn
  | cons p ps ih =>
    rw [List.append_cons, ← List.reverse_cons] at hs
    have hreverse : (p :: s).Pairwise fun q p => Leads H p q :=
      List.pairwise_reverse.1 (List.pairwise_append.1 hs).1
    exact ih (hs.sublist ((Polygon.push_sublist p s).reverse.append_right ps)) (h.push hreverse hturn)

theorem chain {ps : List (Point α)} (hs : ps.Pairwise (Leads H)) :
    IsStrictlyConvex (Polygon.chain ps) := by
  rw [Polygon.chain, IsStrictlyConvex, List.triplewise_reverse]
  exact h.foldl_push hs .nil

/-- **To the left of a chain**: a point to the left of the line from the first point of a chain to
its last one is to the left of all chords. -/
theorem left_of_chain {a b u : Point α} {l : List (Point α)}
    (hs : (a :: (l ++ [b])).Pairwise (Leads H)) (hturn : IsStrictlyConvex (a :: (l ++ [b])))
    (hau : Leads H a u) (hub : Leads H u b) (hleft : 0 < cross a b u) :
    (a :: (l ++ [b])).Pairwise fun p q => 0 < cross p q u := by
  have hconvex := hturn.isConvex
  have hab : Leads H a b := List.rel_of_pairwise_cons hs (by simp)
  refine ((hs.and hconvex.cross_cons).and (IsConvex.cross_concat (l := a :: l) hconvex)).imp ?_
  rintro p q ⟨⟨hpq, hfirst⟩, hlast⟩
  -- a multiple of the way between the ends is a positive sum of ways in the same half
  have hsum := h.add_smul (h.add_smul (h.smul hpq hleft) hau hlast) hub hfirst
  have hx : cross a b u * (q.x - p.x) + cross p q b * (u.x - a.x) + cross a p q * (b.x - u.x) =
      cross p q u * (b.x - a.x) := by
    unfold cross
    ring
  have hy : cross a b u * (q.y - p.y) + cross p q b * (u.y - a.y) + cross a p q * (b.y - u.y) =
      cross p q u * (b.y - a.y) := by
    unfold cross
    ring
  rw [hx, hy] at hsum
  exact h.pos_of_smul hab hsum

end Half

/-! ### Points in order -/

theorem Point.beq_eq (p q : Point α) : (p == q) = decide (p = q) := by
  show ((p.x == q.x) && (p.y == q.y)) = decide (p = q)
  rw [ExactScalar.beq_eq, ExactScalar.beq_eq, ← Bool.decide_and, decide_eq_decide]
  exact Point.ext_iff.symm

/-- Points are in order if they are from left to right, or upwards on a vertical line. -/
theorem Point.order_bne_gt (p q : Point α) :
    (p.order q != .gt) = decide (p.x < q.x ∨ p.x = q.x ∧ p.y ≤ q.y) := by
  rcases lt_trichotomy p.x q.x with h | h | h
  · simp [Point.order, compare_lt_iff_lt.2 h, h]
  · rcases lt_trichotomy p.y q.y with h' | h' | h'
    · simp [Point.order, h, compare_lt_iff_lt.2 h', h'.le]
    · simp [Point.order, h, h']
    · simp [Point.order, h, compare_gt_iff_gt.2 h', h'.not_ge]
  · simp [Point.order, compare_gt_iff_gt.2 h, h.not_gt, h.ne']

/-- Where neighbours differ, each step leads to the right, or straight up. -/
theorem leads_of_isChain {ts : List (Point α)}
    (h : ts.Pairwise fun p q => p.x < q.x ∨ p.x = q.x ∧ p.y ≤ q.y) (hne : ts.IsChain (· ≠ ·)) :
    ts.Pairwise (Leads Rightward) := by
  have htrans : Trans (Leads (Rightward : α → α → Prop)) (Leads Rightward) (Leads Rightward) :=
    ⟨half_rightward.leads_trans⟩
  rw [← List.isChain_iff_pairwise, List.isChain_iff_getElem]
  intro i hi
  have hdiffer := List.isChain_iff_getElem.1 hne i hi
  rcases List.isChain_iff_getElem.1 h.isChain i hi with hx | ⟨hx, hy⟩
  · exact .inl (sub_pos.2 hx)
  · refine .inr ⟨sub_eq_zero.2 hx.symm, sub_pos.2 (hy.lt_of_ne fun hy => hdiffer ?_)⟩
    exact Point.ext hx hy

theorem isChain_eraseReps (ps : List (Point α)) : ps.eraseReps.IsChain (· ≠ ·) :=
  (eraseReps_spec ps).2.imp fun p q hpq => by
    rwa [Point.beq_eq, decide_eq_false_iff_not] at hpq

/-- **The points in order**: each step leads to the right, or straight up. -/
theorem sorted_pairwise (ps : List (Point α)) :
    (Polygon.sorted ps).Pairwise (Leads Rightward) := by
  have hsort : (ps.mergeSort fun p q => p.order q != .gt).Pairwise fun p q =>
      p.x < q.x ∨ p.x = q.x ∧ p.y ≤ q.y := by
    refine (Polygon.pairwise_mergeSort_order ps).imp fun {p q} hpq => ?_
    rwa [← bne_iff_ne, Point.order_bne_gt, decide_eq_true_eq] at hpq
  exact leads_of_isChain (hsort.sublist (eraseReps_spec _).1) (isChain_eraseReps _)

/-! ### Hulls -/

theorem isStrictlyConvex_of_length {ps : List (Point α)} (h : ps.length < 3) :
    IsStrictlyConvex ps := by
  rcases ps with _ | ⟨a, _ | ⟨b, _ | ⟨c, l⟩⟩⟩
  · exact .nil
  · exact List.triplewise_singleton _ _
  · exact List.triplewise_pair _ _ _
  · simp only [List.length_cons] at h
    omega

theorem between_ends {H : α → α → Prop} {a b p : Point α} {l : List (Point α)}
    (h : (a :: (l ++ [b])).Pairwise (Leads H)) (hp : p ∈ l) : Leads H a p ∧ Leads H p b := by
  obtain ⟨hfirst, hrest⟩ := List.pairwise_cons.1 h
  exact ⟨hfirst p (List.mem_append_left _ hp),
    (List.pairwise_append.1 hrest).2.2 p hp b (List.mem_singleton_self b)⟩

/-- The points of a chain are to the left of the line back from its last point to its first one. -/
theorem IsStrictlyConvex.cross_ends {a b p : Point α} {l : List (Point α)}
    (h : IsStrictlyConvex (a :: (l ++ [b]))) (hp : p ∈ l) : 0 < cross b a p := by
  obtain ⟨hfirst, -⟩ := List.triplewise_cons.1 h
  rw [← Point.cross_rotate]
  exact (List.pairwise_append.1 hfirst).2.2 p hp b (List.mem_singleton_self b)

/-- **Two chains that run back and forth between the same ends** turn left all the way around. -/
theorem Half.isStrictlyConvex_chains {H : α → α → Prop} (h : Half H) {a b : Point α}
    {l u : List (Point α)} (hl : (a :: (l ++ [b])).Pairwise (Leads H))
    (hu : (b :: (u ++ [a])).Pairwise (Leads fun x y => H (-x) (-y)))
    (hlturn : IsStrictlyConvex (a :: (l ++ [b]))) (huturn : IsStrictlyConvex (b :: (u ++ [a]))) :
    IsStrictlyConvex (a :: (l ++ [b]) ++ u) := by
  have husub : u.Sublist (u ++ [a]) := List.sublist_append_left u [a]
  refine List.triplewise_append.2 ⟨hlturn, triplewise_sublist (husub.cons b) huturn, ?_, ?_⟩
  · -- two points of the second chain, seen from the first one
    intro p hp
    simp only [List.mem_cons, List.mem_append, List.not_mem_nil, or_false] at hp
    rcases hp with rfl | hp | rfl
    · have hsplit : ((b :: u) ++ [p]).Triplewise fun q r s => 0 < cross q r s := huturn
      obtain ⟨-, -, -, hlast⟩ := List.triplewise_append.1 hsplit
      have hpairs := (List.pairwise_cons.1 (hlast p (List.mem_singleton_self p))).2
      exact hpairs.imp fun {q r} hpos => by rwa [Point.cross_rotate] at hpos
    · obtain ⟨hap, hpb⟩ := between_ends hl hp
      have hpairs := h.opposite.left_of_chain hu huturn (leads_opposite.2 hpb)
        (leads_opposite.2 hap) (hlturn.cross_ends hp)
      refine (hpairs.sublist (husub.cons b)).imp fun {q r} hpos => ?_
      rwa [Point.cross_rotate] at hpos
    · exact (List.triplewise_cons.1 huturn).1.sublist husub
  · -- two points of the first chain, seen from the second one
    intro p hp
    obtain ⟨hbp, hpa⟩ := between_ends hu hp
    exact h.left_of_chain hl hlturn (leads_opposite.1 hpa) (leads_opposite.1 hbp)
      (huturn.cross_ends hp)

/-- A list of more than one has a first and a last place. -/
theorem ends_cases {β : Type} (l : List β) : l.length ≤ 1 ∨ ∃ a m b, l = a :: (m ++ [b]) := by
  rcases l with _ | ⟨a, _ | ⟨b, l⟩⟩
  · exact .inl (by simp)
  · exact .inl (by simp)
  · exact .inr ⟨a, (b :: l).dropLast, (b :: l).getLast (List.cons_ne_nil b l), by
      rw [List.dropLast_append_getLast]⟩

theorem reverse_ends {β : Type} (a b : β) (m : List β) :
    (a :: (m ++ [b])).reverse = b :: (m.reverse ++ [a]) := by
  simp

theorem convexHull_of_length {ps : List (Point α)} (h : (Polygon.sorted ps).length ≤ 1) :
    Polygon.convexHull ps = Polygon.sorted ps :=
  if_pos (by omega)

/-- **A hull runs from the first point to the last one and back**, along its two chains. -/
theorem exists_chains {ps m : List (Point α)} {a b : Point α}
    (hps : Polygon.sorted ps = a :: (m ++ [b])) : ∃ l u, l.Sublist m ∧ u.Sublist m.reverse ∧
      Polygon.chain (a :: (m ++ [b])) = a :: (l ++ [b]) ∧
      Polygon.chain (b :: (m.reverse ++ [a])) = b :: (u ++ [a]) ∧
      Polygon.convexHull ps = a :: (l ++ [b]) ++ u := by
  obtain ⟨l, hl, hlower⟩ := exists_chain a b m
  obtain ⟨u, hu, hupper⟩ := exists_chain b a m.reverse
  refine ⟨l, u, hl, hu, hlower, hupper, ?_⟩
  rw [Polygon.convexHull, hps]
  split
  · rename_i hlen
    obtain rfl : m = [] := List.eq_nil_of_length_eq_zero (by simp at hlen; omega)
    rw [List.sublist_nil.1 hl, List.sublist_nil.1 hu, List.append_nil]
  · rw [hlower, reverse_ends, hupper, List.tail_cons, List.dropLast_concat]

/-- Back from the last point, each step leads into the opposite half of all directions. -/
theorem sorted_reverse_pairwise {ps m : List (Point α)} {a b : Point α}
    (hps : Polygon.sorted ps = a :: (m ++ [b])) :
    (b :: (m.reverse ++ [a])).Pairwise (Leads fun x y => Rightward (-x) (-y)) := by
  rw [← reverse_ends, List.pairwise_reverse, ← hps]
  exact (sorted_pairwise ps).imp leads_opposite.2

/-- **Hulls turn left everywhere.** -/
theorem isStrictlyConvex_convexHull (ps : List (Point α)) :
    IsStrictlyConvex (Polygon.convexHull ps) := by
  rcases ends_cases (Polygon.sorted ps) with hlen | ⟨a, m, b, hps⟩
  · rw [convexHull_of_length hlen]
    exact isStrictlyConvex_of_length (by omega)
  have hsorted := sorted_pairwise ps
  have hback := sorted_reverse_pairwise hps
  obtain ⟨l, u, hl, hu, hlower, hupper, hhull⟩ := exists_chains hps
  rw [hps] at hsorted
  have hlturn := half_rightward.chain hsorted
  have huturn := half_rightward.opposite.chain hback
  rw [hlower] at hlturn
  rw [hupper] at huturn
  rw [hhull]
  exact half_rightward.isStrictlyConvex_chains
    (hsorted.sublist ((hl.append_right [b]).cons_cons a))
    (hback.sublist ((hu.append_right [a]).cons_cons b)) hlturn huturn

end TrackFusion
