import TrackFusion.Proofs.Geometry.Enclosing
import TrackFusion.Proofs.Geometry.Overlaps

/-!
# Vertices of hulls

What a hull is for points on one line and for others, and that the hull of a hull is no other one.

* `OnOneLine`, `IsExtreme`: no three points make a triangle; a point is not between two others.
* `three_le_length_convexHull`: points that are not on one line have a third vertex.
* `OnOneLine.mem_convexHull_iff`: of points on one line, the hull has the extreme ones.
* `IsStrictlyConvex.subset_convexHull`: a polygon that turns left everywhere loses no vertex.
* `convexHull_convexHull`, `region_convexHull`: the hull of a hull, and the region of one.
* `convexHull_vertices`: all of this together.
-/

namespace TrackFusion

open Point (cross)

variable {α : Type} [ExactScalar α]

/-! ### Points on one line -/

/-- No three of the points make a triangle. -/
def OnOneLine (ps : List (Point α)) : Prop :=
  ∀ a ∈ ps, ∀ b ∈ ps, ∀ c ∈ ps, cross a b c = 0

/-- A point that is not between two others. -/
structure IsExtreme (ps : List (Point α)) (p : Point α) : Prop where
  mem : p ∈ ps
  not_between : ∀ q ∈ ps, ∀ r ∈ ps, ∀ t : α, 0 < t → t < 1 → p = q.toward r t → q = r

/-- Points on the line through two points that differ make no triangle. -/
theorem cross_eq_zero_of_line {a b : Point α} (hab : a ≠ b) {p q r : Point α}
    (hp : cross a b p = 0) (hq : cross a b q = 0) (hr : cross a b r = 0) : cross p q r = 0 := by
  have hx : (b.x - a.x) * cross p q r = 0 := by
    have hsum : (b.x - a.x) * cross p q r = (q.x - p.x) * (cross a b r - cross a b p) -
        (r.x - p.x) * (cross a b q - cross a b p) := by
      unfold cross
      ring
    rw [hsum, hp, hq, hr]
    ring
  have hy : (b.y - a.y) * cross p q r = 0 := by
    have hsum : (b.y - a.y) * cross p q r = (q.y - p.y) * (cross a b r - cross a b p) -
        (r.y - p.y) * (cross a b q - cross a b p) := by
      unfold cross
      ring
    rw [hsum, hp, hq, hr]
    ring
  by_contra hne
  rcases mul_eq_zero.1 hx with hx | hx
  · rcases mul_eq_zero.1 hy with hy | hy
    · exact hab (Point.ext (sub_eq_zero.1 hx).symm (sub_eq_zero.1 hy).symm)
    · exact hne hy
  · exact hne hx

/-- Points that are all the same are on one line. -/
theorem onOneLine_of_length {ps : List (Point α)} (h : (Polygon.sorted ps).length ≤ 1) :
    OnOneLine ps := by
  intro a ha b hb c hc
  rw [eq_of_sorted_length h ha hb, Point.cross_self_left]

theorem three_le_length_iff {β : Type} {l : List β} :
    3 ≤ l.length ↔ ∃ a b c k, l = a :: b :: c :: k := by
  rcases l with _ | ⟨a, _ | ⟨b, _ | ⟨c, k⟩⟩⟩ <;> simp

/-- **A hull has a third vertex** unless the points are on one line. -/
theorem three_le_length_convexHull {ps : List (Point α)} :
    3 ≤ (Polygon.convexHull ps).length ↔ ¬OnOneLine ps := by
  constructor
  · intro hlen hline
    obtain ⟨a, b, c, k, hk⟩ := three_le_length_iff.1 hlen
    have hmem : ∀ p ∈ [a, b, c], p ∈ ps := fun p hp =>
      convexHull_subset ps (by rw [hk]; simp at hp ⊢; tauto)
    have hturn := isStrictlyConvex_convexHull ps
    rw [hk] at hturn
    have hpos : 0 < cross a b c :=
      (List.pairwise_cons.1 (List.triplewise_cons.1 hturn).1).1 c List.mem_cons_self
    rw [hline a (hmem a (by simp)) b (hmem b (by simp)) c (hmem c (by simp))] at hpos
    exact lt_irrefl 0 hpos
  · intro hline
    by_contra hlen
    rcases ends_cases (Polygon.sorted ps) with hshort | ⟨a, m, b, hps⟩
    · exact hline (onOneLine_of_length hshort)
    -- the way from the one end to the other and back has all points to its left
    have hhull := convexHull_eq_ends hps hlen
    have hzero : ∀ p ∈ ps, cross a b p = 0 := by
      intro p hp
      have hab : 0 ≤ cross a b p :=
        left_of_convexHull hp (e := (a, b)) (by simp [hhull, edges_cons])
      have hba : 0 ≤ cross b a p :=
        left_of_convexHull hp (e := (b, a)) (by simp [hhull, edges_cons])
      rw [Point.cross_comm] at hba
      linarith
    exact hline fun p hp q hq r hr =>
      cross_eq_zero_of_line (first_ne_last hps) (hzero p hp) (hzero q hq) (hzero r hr)

namespace Half

variable {H : α → α → Prop} (h : Half H)

include h

/-- The first of all points is not between two others. -/
theorem isExtreme {ps : List (Point α)} {a : Point α} (ha : a ∈ ps)
    (hfirst : ∀ q ∈ ps, q = a ∨ Leads H a q) : IsExtreme ps a := by
  refine ⟨ha, fun q hq r hr t ht₀ ht₁ hat => ?_⟩
  have hx : (1 - t) * (q.x - a.x) + t * (r.x - a.x) = 0 := by
    have hax := congrArg Point.x hat
    rw [Point.toward_x] at hax
    linarith
  have hy : (1 - t) * (q.y - a.y) + t * (r.y - a.y) = 0 := by
    have hay := congrArg Point.y hat
    rw [Point.toward_y] at hay
    linarith
  rcases hfirst q hq with rfl | hq
  · simp only [sub_self, mul_zero, zero_add, mul_eq_zero, ht₀.ne', false_or] at hx hy
    exact Point.ext (sub_eq_zero.1 hx).symm (sub_eq_zero.1 hy).symm
  · have hback : Leads H a r → False := by
      intro hr
      have hsum := h.add (h.smul hq (sub_pos.2 ht₁)) (h.smul hr ht₀)
      rw [hx, hy] at hsum
      exact h.zero hsum
    rcases hfirst r hr with rfl | hr
    · simp only [sub_self, mul_zero, add_zero, mul_eq_zero, (sub_pos.2 ht₁).ne', false_or] at hx hy
      exact Point.ext (sub_eq_zero.1 hx) (sub_eq_zero.1 hy)
    · exact absurd hr hback

/-- A point on the way from one point straight to another one is a share of the way. -/
theorem exists_toward {a b p : Point α} (hap : Leads H a p) (hpb : Leads H p b)
    (hline : cross a b p = 0) : ∃ t : α, 0 < t ∧ t < 1 ∧ p = a.toward b t := by
  have hab := h.leads_trans hap hpb
  obtain ⟨t, hx, hy⟩ : ∃ t : α, p.x - a.x = t * (b.x - a.x) ∧ p.y - a.y = t * (b.y - a.y) := by
    unfold cross at hline
    by_cases hx : b.x - a.x = 0
    · have hy : b.y - a.y ≠ 0 := by
        intro hy
        rw [Leads, hx, hy] at hab
        exact h.zero hab
      refine ⟨(p.y - a.y) / (b.y - a.y), ?_, by field_simp⟩
      have hpx : p.x - a.x = 0 := by
        rw [hx, zero_mul, zero_sub, neg_eq_zero] at hline
        exact (mul_eq_zero.1 hline).resolve_left hy
      rw [hpx, hx, mul_zero]
    · refine ⟨(p.x - a.x) / (b.x - a.x), by field_simp, ?_⟩
      rw [div_mul_eq_mul_div, eq_div_iff hx]
      linarith
  have hback : Leads H p b ↔ H ((1 - t) * (b.x - a.x)) ((1 - t) * (b.y - a.y)) := by
    have hbx : b.x - p.x = (1 - t) * (b.x - a.x) := by linarith
    have hby : b.y - p.y = (1 - t) * (b.y - a.y) := by linarith
    rw [Leads, hbx, hby]
  rw [hback] at hpb
  rw [Leads, hx, hy] at hap
  refine ⟨t, h.pos_of_smul hab hap, sub_pos.1 (h.pos_of_smul hab hpb), ?_⟩
  apply Point.ext
  · rw [Point.toward_x]
    linarith
  · rw [Point.toward_y]
    linarith

end Half

/-- Points on one line are between its two ends. -/
theorem OnOneLine.exists_toward {ps m : List (Point α)} {a b p : Point α} (hline : OnOneLine ps)
    (hps : Polygon.sorted ps = a :: (m ++ [b])) (hp : p ∈ ps) :
    p = a ∨ p = b ∨ ∃ t : α, 0 < t ∧ t < 1 ∧ p = a.toward b t := by
  rcases first_leads hps hp with hpa | hap
  · exact .inl hpa
  · rcases last_leads hps hp with hpb | hbp
    · exact .inr (.inl hpb)
    · have hflat : cross a b p = 0 := hline a (first_mem hps) b (last_mem hps) p hp
      exact .inr (.inr (half_rightward.exists_toward hap (leads_opposite.1 hbp) hflat))

/-- The hull of points on one line has their two ends. -/
theorem OnOneLine.convexHull_eq {ps m : List (Point α)} {a b : Point α} (hline : OnOneLine ps)
    (hps : Polygon.sorted ps = a :: (m ++ [b])) : Polygon.convexHull ps = [a, b] :=
  convexHull_eq_ends hps (mt three_le_length_convexHull.1 (not_not.2 hline))

/-- **Of points on one line** the hull has those that are not between two others. -/
theorem OnOneLine.mem_convexHull_iff {ps : List (Point α)} (hline : OnOneLine ps) {p : Point α} :
    p ∈ Polygon.convexHull ps ↔ IsExtreme ps p := by
  rcases ends_cases (Polygon.sorted ps) with hlen | ⟨a, m, b, hps⟩
  · rw [convexHull_of_length hlen, mem_sorted]
    refine ⟨fun hp => ?_, IsExtreme.mem⟩
    exact half_rightward.isExtreme hp fun q hq => .inl (eq_of_sorted_length hlen hq hp)
  rw [hline.convexHull_eq hps]
  simp only [List.mem_cons, List.not_mem_nil, or_false]
  constructor
  · rintro (rfl | rfl)
    · exact half_rightward.isExtreme (first_mem hps) fun q hq => first_leads hps hq
    · exact half_rightward.opposite.isExtreme (last_mem hps) fun q hq => last_leads hps hq
  · intro hp
    rcases hline.exists_toward hps hp.mem with hpa | hpb | ⟨t, ht₀, ht₁, hpt⟩
    · exact .inl hpa
    · exact .inr hpb
    · have hab := hp.not_between a (first_mem hps) b (last_mem hps) t ht₀ ht₁ hpt
      exact absurd hab (first_ne_last hps)

/-! ### Hulls of hulls -/

/-- From each vertex of a polygon with more than one there is a side to another one. -/
theorem exists_edge {β : Type} {l : List β} {m b : β} (hm : m ∈ l) (hb : b ∈ l) (hne : b ≠ m) :
    ∃ e ∈ Polygon.edges l, e.1 = m ∧ e.2 ≠ m := by
  rcases l with _ | ⟨a, l⟩
  · cases hm
  rw [edges_cons]
  by_cases ha : a = m
  · -- the way leaves the first vertex before it comes to the other one
    subst ha
    have hb : b ∈ l := (List.mem_cons.1 hb).resolve_left hne
    obtain ⟨k, k', rfl⟩ := List.append_of_mem hb
    obtain ⟨e, he, hfrom, hto⟩ := exists_step (P := fun x => x = a) rfl hne k
    refine ⟨e, ?_, hfrom, hto⟩
    rw [List.append_assoc, List.cons_append, steps_append]
    exact List.mem_append_left _ he
  · have hm : m ∈ l := (List.mem_cons.1 hm).resolve_left (Ne.symm ha)
    obtain ⟨k, k', rfl⟩ := List.append_of_mem hm
    obtain ⟨e, he, hfrom, hto⟩ := exists_step (P := fun x => x = m) rfl ha k'
    refine ⟨e, ?_, hfrom, hto⟩
    rw [List.append_assoc, List.cons_append, steps_append]
    exact List.mem_append_right _ he

/-- Of some members of a list in order, one is the last. -/
theorem exists_last {β : Type} {r : β → β → Prop} {l : List β} (hl : l.Pairwise r) {s : β → Prop}
    {b : β} (hb : b ∈ l) (hsb : s b) : ∃ m ∈ l, s m ∧ ∀ x ∈ l, s x → x = m ∨ r x m := by
  induction l generalizing b with
  | nil => cases hb
  | cons a l ih =>
    obtain ⟨ha, hrest⟩ := List.pairwise_cons.1 hl
    by_cases hex : ∃ x ∈ l, s x
    · obtain ⟨x, hx, hsx⟩ := hex
      obtain ⟨m, hm, hsm, hlast⟩ := ih hrest hx hsx
      refine ⟨m, List.mem_cons_of_mem a hm, hsm, fun y hy hsy => ?_⟩
      rcases List.mem_cons.1 hy with rfl | hy
      · exact .inr (ha m hm)
      · exact hlast y hy hsy
    · have hnone : ∀ x ∈ l, ¬s x := fun x hx hsx => hex ⟨x, hx, hsx⟩
      obtain rfl : b = a := (List.mem_cons.1 hb).resolve_right fun hb => hnone b hb hsb
      refine ⟨b, List.mem_cons_self, hsb, fun y hy hsy => ?_⟩
      exact .inl ((List.mem_cons.1 hy).resolve_right fun hy => hnone y hy hsy)

theorem isStrictlyConvex_append_comm (l l' : List (Point α)) :
    IsStrictlyConvex (l ++ l') ↔ IsStrictlyConvex (l' ++ l) :=
  triplewise_append_comm (fun a b c => by rw [Point.cross_rotate a b c]) l l'

theorem IsStrictlyConvex.isRotated {ps qs : List (Point α)} (h : IsStrictlyConvex ps)
    (hrot : qs.IsRotated ps) : IsStrictlyConvex qs := by
  obtain ⟨n, hn⟩ := hrot.symm
  rw [List.rotate_eq_drop_append_take_mod] at hn
  rw [← hn, isStrictlyConvex_append_comm, List.take_append_drop]
  exact h

/-- **A polygon that turns left everywhere** has only vertices that its hull has too. -/
theorem IsStrictlyConvex.subset_convexHull {ps : List (Point α)} (h : IsStrictlyConvex ps) :
    ps ⊆ Polygon.convexHull ps := by
  intro p hp
  by_contra hnot
  rcases ends_cases (Polygon.sorted ps) with hlen | ⟨a, m, b, hps⟩
  · rw [convexHull_of_length hlen, mem_sorted] at hnot
    exact hnot hp
  obtain ⟨l, u, -, -, -, -, hhull⟩ := exists_chains hps
  have ha : a ∈ Polygon.convexHull ps := by simp [hhull]
  have hb : b ∈ Polygon.convexHull ps := by simp [hhull]
  -- seen from `p`, the other vertices follow each other to the left
  obtain ⟨k, k', rfl⟩ := List.append_of_mem hp
  have hturn := (isStrictlyConvex_append_comm _ _).1 h
  obtain ⟨hpairs, -⟩ := List.triplewise_cons.1 hturn
  have hothers : ∀ q ∈ Polygon.convexHull (k ++ p :: k'), q ∈ k' ++ k := by
    intro q hq
    have hmem := convexHull_subset _ hq
    have hne : q ≠ p := fun heq => hnot (heq ▸ hq)
    simp only [List.mem_append, List.mem_cons] at hmem ⊢
    tauto
  -- from the last one that the hull has, the hull goes on to another one, and has `p` to its right
  obtain ⟨c, -, hc, hlast⟩ := exists_last hpairs (s := (· ∈ Polygon.convexHull (k ++ p :: k')))
    (hothers a ha) ha
  obtain ⟨d, hd, hdc⟩ : ∃ d ∈ Polygon.convexHull (k ++ p :: k'), d ≠ c := by
    by_cases hac : a = c
    · exact ⟨b, hb, fun hbc => first_ne_last hps (hac.trans hbc.symm)⟩
    · exact ⟨a, ha, hac⟩
  obtain ⟨e, he, hfrom, hto⟩ := exists_edge hc hd hdc
  have hright : 0 < cross p e.2 c := by
    have hmem := (mem_of_mem_edges he).2
    exact (hlast e.2 (hothers e.2 hmem) hmem).resolve_left hto
  have hleft := left_of_convexHull hp he
  rw [hfrom, ← Point.cross_rotate, ← Point.cross_rotate, Point.cross_swap] at hleft
  linarith

/-- A polygon that turns left everywhere is told by its first vertex and by which others it
has. -/
theorem IsStrictlyConvex.eq_of_mem_iff {a : Point α} {l l' : List (Point α)}
    (h : IsStrictlyConvex (a :: l)) (h' : IsStrictlyConvex (a :: l')) (hn : (a :: l).Nodup)
    (hn' : (a :: l').Nodup) (hmem : ∀ p, p ∈ a :: l ↔ p ∈ a :: l') : a :: l = a :: l' := by
  have : Std.Irrefl fun p q : Point α => 0 < cross a p q :=
    ⟨fun p hp => by rw [Point.cross_self_right] at hp; exact lt_irrefl 0 hp⟩
  have : Std.Antisymm fun p q : Point α => 0 < cross a p q :=
    ⟨fun p q hpq hqp => by rw [Point.cross_swap] at hqp; linarith⟩
  have hrest : l = l' := by
    refine (List.triplewise_cons.1 h).1.eq_of_mem_iff (List.triplewise_cons.1 h').1 fun p => ?_
    have ha := (List.nodup_cons.1 hn).1
    have ha' := (List.nodup_cons.1 hn').1
    have hp := hmem p
    simp only [List.mem_cons] at hp
    constructor
    · intro hl
      exact (hp.1 (.inr hl)).resolve_left fun heq => ha (heq ▸ hl)
    · intro hl
      exact (hp.2 (.inr hl)).resolve_left fun heq => ha' (heq ▸ hl)
  rw [hrest]

/-- **The hull of a hull** is the same list. -/
theorem convexHull_convexHull (ps : List (Point α)) :
    Polygon.convexHull (Polygon.convexHull ps) = Polygon.convexHull ps := by
  have hsub := convexHull_subset ps
  have hturn := isStrictlyConvex_convexHull ps
  have hmem : ∀ p, p ∈ Polygon.convexHull (Polygon.convexHull ps) ↔ p ∈ Polygon.convexHull ps :=
    fun p => ⟨fun hp => convexHull_subset _ hp, fun hp => hturn.subset_convexHull hp⟩
  rcases ends_cases (Polygon.sorted ps) with hlen | ⟨a, m, b, hps⟩
  · exact convexHull_congr fun p => by rw [convexHull_of_length hlen, mem_sorted]
  obtain ⟨l, u, -, -, -, -, hhull⟩ := exists_chains hps
  rcases ends_cases (Polygon.sorted (Polygon.convexHull ps)) with hlen | ⟨a', m', b', hps'⟩
  · refine absurd ?_ (first_ne_last hps)
    exact eq_of_sorted_length hlen (by simp [hhull]) (by simp [hhull])
  obtain ⟨l', u', -, -, -, -, hhull'⟩ := exists_chains hps'
  -- both begin with the first point
  have hfirst : a = a' := by
    have ha : a ∈ Polygon.convexHull ps := by simp [hhull]
    have ha' : a' ∈ Polygon.convexHull ps := by
      rw [← mem_sorted, hps']
      exact List.mem_cons_self
    rcases first_leads hps' ha with heq | hlead
    · exact heq
    · rcases first_leads hps (hsub ha') with heq | hlead'
      · exact heq.symm
      · exact absurd hlead' (half_rightward.asymm_leads hlead)
  subst hfirst
  have hturn' := isStrictlyConvex_convexHull (Polygon.convexHull ps)
  have hnodup := nodup_convexHull ps
  have hnodup' := nodup_convexHull (Polygon.convexHull ps)
  rw [hhull'] at hturn' hnodup' hmem ⊢
  rw [hhull] at hturn hnodup hmem ⊢
  exact hturn'.eq_of_mem_iff hturn hnodup' hnodup hmem

/-! ### Regions -/

/-- **The region of a hull** is the convex hull of the points. -/
theorem region_convexHull (ps : List (Point ℝ)) : region (Polygon.convexHull ps) = region ps := by
  have hconvex := isStrictlyConvex_convexHull ps
  refine Set.Subset.antisymm (region_mono (convexHull_subset ps)) ?_
  refine region_subset (convex_region _) fun p hp => ?_
  by_cases hlen : 3 ≤ (Polygon.convexHull ps).length
  · exact hconvex.isConvex.mem_region (hconvex.isProper hlen).twiceArea_pos
      fun e he => left_of_convexHull hp he
  rcases ends_cases (Polygon.sorted ps) with hshort | ⟨a, m, b, hps⟩
  · rw [convexHull_of_length hshort]
    exact coords_mem_region (mem_sorted.2 hp)
  · -- points on one line
    have hline : OnOneLine ps := by_contra fun hline => hlen (three_le_length_convexHull.2 hline)
    rw [hline.convexHull_eq hps]
    rcases hline.exists_toward hps hp with rfl | rfl | ⟨t, ht₀, ht₁, rfl⟩
    · exact coords_mem_region (by simp)
    · exact coords_mem_region (by simp)
    · exact toward_mem_region (convex_region _) (coords_mem_region (by simp))
        (coords_mem_region (by simp)) ht₀.le ht₁.le

/-! ### Hulls -/

/-- **What a hull is.** Its vertices are some of the points, each of them once. If the points are
not on one line, there are three vertices at least, any three that follow each other turn left,
from wherever the hull is read, and all points are to the left of all sides. If they are, the hull has at
most two points, those that are not between two others. It does not depend on the order of the
points or on how often each of them is given, and the hull of a hull is that hull. -/
theorem convexHull_vertices (ps : List (Point α)) :
    (Polygon.convexHull ps).Nodup ∧ Polygon.convexHull ps ⊆ ps ∧
    (¬OnOneLine ps → 3 ≤ (Polygon.convexHull ps).length ∧
      (∀ a b c l, (a :: b :: c :: l).IsRotated (Polygon.convexHull ps) → 0 < cross a b c) ∧
      ∀ p ∈ ps, ∀ e ∈ Polygon.edges (Polygon.convexHull ps), 0 ≤ cross e.1 e.2 p) ∧
    (OnOneLine ps → (Polygon.convexHull ps).length ≤ 2 ∧
      ∀ p, p ∈ Polygon.convexHull ps ↔ IsExtreme ps p) ∧
    (∀ qs, (∀ p, p ∈ qs ↔ p ∈ ps) → Polygon.convexHull qs = Polygon.convexHull ps) ∧
    Polygon.convexHull (Polygon.convexHull ps) = Polygon.convexHull ps := by
  have hlen : 3 ≤ (Polygon.convexHull ps).length ↔ ¬OnOneLine ps := three_le_length_convexHull
  refine ⟨nodup_convexHull ps, convexHull_subset ps, fun hline => ⟨hlen.2 hline, ?_, ?_⟩,
    fun hline => ⟨?_, ?_⟩, fun qs => convexHull_congr, convexHull_convexHull ps⟩
  · intro a b c l hrot
    have hturn := (isStrictlyConvex_convexHull ps).isRotated hrot
    exact (List.pairwise_cons.1 (List.triplewise_cons.1 hturn).1).1 c List.mem_cons_self
  · exact fun p hp e he => left_of_convexHull hp he
  · have hshort := mt hlen.1 (not_not.2 hline)
    omega
  · exact fun p => hline.mem_convexHull_iff

end TrackFusion
