import TrackFusion.Proofs.Geometry.Hulls

/-!
# Hulls enclose their points

A chain drops only points that are above the line that takes their place. So a line in the direction
of the chain that has the chain to its left has all points to its left.

* `Half.left_of_push`, `left_of_chain_points`: one point, and all of them.
* `mem_sorted`, `convexHull_congr`: a hull depends on the set of the points.
* `nodup_convexHull`: it has each of its vertices once.
* `left_of_convexHull`: all points are to the left of all sides.
-/

namespace TrackFusion

open Point (cross)

variable {α : Type} [ExactScalar α]

/-! ### What a chain leaves out -/

namespace Half

variable {H : α → α → Prop} (h : Half H)

include h

/-- What is above the line between two points that are to the left of a line is to the left of it
too, if all of them are on a way in one half of all directions. -/
theorem left_of_chord {x y p q u : Point α} (hxy : Leads H x y) (hpu : Leads H p u)
    (huq : Leads H u q) (hp : 0 ≤ cross x y p) (hq : 0 ≤ cross x y q) (hu : 0 ≤ cross p q u) :
    0 ≤ cross x y u := by
  by_contra hneg
  rw [not_le] at hneg
  -- the way over `u` would fall below the line and come back to it, and so turn left at `u`
  have hfall : 0 < (u.x - p.x) * (y.y - x.y) - (u.y - p.y) * (y.x - x.x) := by
    unfold cross at hp hneg
    linarith
  have hrise : 0 < (y.x - x.x) * (q.y - u.y) - (y.y - x.y) * (q.x - u.x) := by
    unfold cross at hq hneg
    linarith
  have hturn := h.cross_trans hpu hxy huq hfall hrise
  unfold cross at hu
  linarith

/-- The points that a new one drops from a chain are above the line to the new one. -/
theorem left_of_push {x y p : Point α} {s : List (Point α)} (hxy : Leads H x y)
    (hs : (p :: s).Pairwise fun q p => Leads H p q)
    (hleft : ∀ q ∈ Polygon.push p s, 0 ≤ cross x y q) : ∀ q ∈ p :: s, 0 ≤ cross x y q := by
  fun_induction Polygon.push p s with
  | case1 b a rest hle ih =>
    have hrest := ih (hs.sublist ((List.sublist_cons_self b _).cons_cons p)) hleft
    simp only [List.pairwise_cons, List.mem_cons, forall_eq_or_imp] at hs hrest ⊢
    obtain ⟨⟨hbp, -⟩, ⟨hab, -⟩, -⟩ := hs
    obtain ⟨hp, ha, hrest⟩ := hrest
    have hchord : 0 ≤ cross a p b := by
      rw [Point.cross_swap]
      linarith
    exact ⟨hp, h.left_of_chord hxy hab hbp ha hp hchord, ha, hrest⟩
  | case2 b a rest hlt => exact hleft
  | case3 s hshort => exact hleft

theorem left_of_foldl {x y : Point α} {s ps : List (Point α)} (hxy : Leads H x y)
    (hs : (s.reverse ++ ps).Pairwise (Leads H))
    (hleft : ∀ q ∈ ps.foldl (fun c p => Polygon.push p c) s, 0 ≤ cross x y q) :
    ∀ q ∈ s.reverse ++ ps, 0 ≤ cross x y q := by
  induction ps generalizing s with
  | nil => simpa using hleft
  | cons p ps ih =>
    rw [List.append_cons, ← List.reverse_cons] at hs ⊢
    have hpush : (p :: s).Pairwise fun q p => Leads H p q :=
      List.pairwise_reverse.1 (List.pairwise_append.1 hs).1
    have hrest := ih (hs.sublist ((Polygon.push_sublist p s).reverse.append_right ps)) hleft
    simp only [List.mem_append, List.mem_reverse] at hrest ⊢
    rintro q (hq | hq)
    · exact h.left_of_push hxy hpush (fun q hq => hrest q (.inl hq)) q hq
    · exact hrest q (.inr hq)

/-- **What is to the right of no vertex of a chain** is to the right of none of its points. -/
theorem left_of_chain_points {x y : Point α} {ps : List (Point α)} (hxy : Leads H x y)
    (hs : ps.Pairwise (Leads H)) (hleft : ∀ q ∈ Polygon.chain ps, 0 ≤ cross x y q) :
    ∀ q ∈ ps, 0 ≤ cross x y q := by
  refine h.left_of_foldl (s := []) hxy hs fun q hq => hleft q ?_
  rwa [Polygon.chain, List.mem_reverse]

end Half

/-! ### The points in order -/

instance : LawfulBEq (Point α) where
  rfl {p} := by simp [Point.beq_eq]
  eq_of_beq {p q} h := by simpa [Point.beq_eq] using h

@[simp] theorem mem_sorted {ps : List (Point α)} {p : Point α} :
    p ∈ Polygon.sorted ps ↔ p ∈ ps := by
  rw [Polygon.sorted, mem_eraseReps, List.mem_mergeSort]

namespace Half

variable {H : α → α → Prop} (h : Half H) {p q : Point α}

include h

theorem irrefl_leads (p : Point α) : ¬Leads H p p := by
  rw [Leads, sub_self, sub_self]
  exact h.zero

theorem asymm_leads (hpq : Leads H p q) : ¬Leads H q p := fun hqp =>
  h.irrefl_leads p (h.leads_trans hpq hqp)

theorem nodup {ps : List (Point α)} (hps : ps.Pairwise (Leads H)) : ps.Nodup := by
  refine hps.imp fun {p q} hpq => ?_
  rintro rfl
  exact h.irrefl_leads p hpq

/-- Points in order are told by which ones they are. -/
theorem eq_of_mem_iff {ps qs : List (Point α)} (hps : ps.Pairwise (Leads H))
    (hqs : qs.Pairwise (Leads H)) (hmem : ∀ p, p ∈ ps ↔ p ∈ qs) : ps = qs := by
  have : Std.Irrefl (Leads H) := ⟨h.irrefl_leads⟩
  have : Std.Antisymm (Leads H) := ⟨fun p q hpq hqp => absurd hqp (h.asymm_leads hpq)⟩
  exact hps.eq_of_mem_iff hqs hmem

end Half

/-- **A hull depends on the set of the points** only. -/
theorem convexHull_congr {ps qs : List (Point α)} (h : ∀ p, p ∈ ps ↔ p ∈ qs) :
    Polygon.convexHull ps = Polygon.convexHull qs := by
  have hsorted : Polygon.sorted ps = Polygon.sorted qs :=
    half_rightward.eq_of_mem_iff (sorted_pairwise ps) (sorted_pairwise qs) fun p => by
      rw [mem_sorted, mem_sorted, h]
  rw [Polygon.convexHull, Polygon.convexHull, hsorted]

/-- A list in order of at most one point is that of points that are all the same. -/
theorem eq_of_sorted_length {ps : List (Point α)} (h : (Polygon.sorted ps).length ≤ 1)
    {p q : Point α} (hp : p ∈ ps) (hq : q ∈ ps) : p = q := by
  rw [← mem_sorted] at hp hq
  have hpos := List.length_pos_of_mem hp
  obtain ⟨o, ho⟩ := List.length_eq_one_iff.1 (le_antisymm h hpos)
  rw [ho, List.mem_singleton] at hp hq
  rw [hp, hq]

/-! ### Ends -/

section ends

variable {ps m : List (Point α)} {a b p : Point α}

theorem first_mem (hps : Polygon.sorted ps = a :: (m ++ [b])) : a ∈ ps := by
  rw [← mem_sorted, hps]
  exact List.mem_cons_self

theorem last_mem (hps : Polygon.sorted ps = a :: (m ++ [b])) : b ∈ ps := by
  rw [← mem_sorted, hps]
  simp

theorem first_leads (hps : Polygon.sorted ps = a :: (m ++ [b])) (hp : p ∈ ps) :
    p = a ∨ Leads Rightward a p := by
  have hsorted := sorted_pairwise ps
  rw [← mem_sorted, hps] at hp
  rw [hps] at hsorted
  exact (List.mem_cons.1 hp).imp_right ((List.pairwise_cons.1 hsorted).1 p)

theorem last_leads (hps : Polygon.sorted ps = a :: (m ++ [b])) (hp : p ∈ ps) :
    p = b ∨ Leads (fun x y => Rightward (-x) (-y)) b p := by
  have hback := sorted_reverse_pairwise hps
  rw [← mem_sorted, hps, ← List.mem_reverse, reverse_ends] at hp
  exact (List.mem_cons.1 hp).imp_right ((List.pairwise_cons.1 hback).1 p)

theorem first_ne_last (hps : Polygon.sorted ps = a :: (m ++ [b])) : a ≠ b := by
  have hsorted := sorted_pairwise ps
  rw [hps] at hsorted
  rintro rfl
  exact half_rightward.irrefl_leads a (List.rel_of_pairwise_cons hsorted (by simp))

end ends

/-! ### Vertices -/

/-- A hull of less than three vertices has the two ends. -/
theorem convexHull_eq_ends {ps m : List (Point α)} {a b : Point α}
    (hps : Polygon.sorted ps = a :: (m ++ [b])) (hlen : ¬3 ≤ (Polygon.convexHull ps).length) :
    Polygon.convexHull ps = [a, b] := by
  obtain ⟨l, u, -, -, -, -, hhull⟩ := exists_chains hps
  have hcount : (Polygon.convexHull ps).length = l.length + u.length + 2 := by
    rw [hhull]
    simp only [List.length_append, List.length_cons, List.length_nil]
    omega
  have hl : l = [] := List.eq_nil_of_length_eq_zero (by omega)
  have hu : u = [] := List.eq_nil_of_length_eq_zero (by omega)
  rw [hhull, hl, hu]
  rfl

theorem IsStrictlyConvex.nodup {ps : List (Point α)} (h : IsStrictlyConvex ps)
    (hlen : 3 ≤ ps.length) : ps.Nodup := by
  rcases ps with _ | ⟨o, _ | ⟨a, _ | ⟨b, l⟩⟩⟩
  · simp at hlen
  · simp at hlen
  · simp at hlen
  obtain ⟨hpairs, -⟩ := List.triplewise_cons.1 h
  refine List.nodup_cons.2 ⟨fun ho => ?_, hpairs.imp fun {p q} hpq => ?_⟩
  · -- the first vertex does not turn left between itself and another one
    have hall := (List.pairwise_cons.1 hpairs).1
    rcases List.mem_cons.1 ho with rfl | ho
    · have hpos := hall b List.mem_cons_self
      rw [Point.cross_self_left] at hpos
      exact lt_irrefl 0 hpos
    · have hpos := hall o ho
      rw [Point.cross_self_outer] at hpos
      exact lt_irrefl 0 hpos
  · rintro rfl
    rw [Point.cross_self_right] at hpq
    exact lt_irrefl 0 hpq

theorem nodup_convexHull (ps : List (Point α)) : (Polygon.convexHull ps).Nodup := by
  rcases ends_cases (Polygon.sorted ps) with hlen | ⟨a, m, b, hps⟩
  · rw [convexHull_of_length hlen]
    exact half_rightward.nodup (sorted_pairwise ps)
  · by_cases hlen : 3 ≤ (Polygon.convexHull ps).length
    · exact (isStrictlyConvex_convexHull ps).nodup hlen
    · rw [convexHull_eq_ends hps hlen]
      simpa using first_ne_last hps

/-! ### Sides -/

/-- The sides of two ways that run back and forth. -/
theorem edges_chains {β : Type} (a b : β) (l u : List β) :
    Polygon.edges (a :: (l ++ [b]) ++ u) = steps a (l ++ [b]) ++ steps b (u ++ [a]) := by
  rw [List.cons_append, edges_cons, List.append_assoc, List.append_assoc, List.singleton_append,
    steps_append]

/-- The points are to the left of each step of a chain over them. -/
theorem Half.left_of_step {H : α → α → Prop} (h : Half H) {a b : Point α} {m l : List (Point α)}
    (hs : (a :: (m ++ [b])).Pairwise (Leads H)) (hl : l.Sublist m)
    (hchain : Polygon.chain (a :: (m ++ [b])) = a :: (l ++ [b])) {e : Point α × Point α}
    (he : e ∈ steps a (l ++ [b])) {p : Point α} (hp : p ∈ a :: (m ++ [b])) :
    0 ≤ cross e.1 e.2 p := by
  have hturn := h.chain hs
  have hsub : (a :: (l ++ [b])).Sublist (a :: (m ++ [b])) := (hl.append_right [b]).cons_cons a
  have hway := hs.sublist hsub
  obtain ⟨k, k', hk⟩ := exists_of_mem_steps he
  rw [hchain, hk] at hturn
  rw [hk] at hway
  have hstep : Leads H e.1 e.2 :=
    (List.pairwise_cons.1 (List.pairwise_append.1 hway).2.1).1 e.2 List.mem_cons_self
  refine h.left_of_chain_points hstep hs (fun q hq => ?_) p hp
  -- the vertices of the chain are to the left, since it turns left
  rw [hchain, hk] at hq
  exact hturn.isConvex.left_of_step hq

/-- **All points are to the left of all sides.** -/
theorem left_of_convexHull {ps : List (Point α)} {p : Point α} (hp : p ∈ ps)
    {e : Point α × Point α} (he : e ∈ Polygon.edges (Polygon.convexHull ps)) :
    0 ≤ cross e.1 e.2 p := by
  rcases ends_cases (Polygon.sorted ps) with hlen | ⟨a, m, b, hps⟩
  · obtain ⟨h₁, h₂⟩ := mem_of_mem_edges he
    have hsame : e.1 = e.2 :=
      eq_of_sorted_length hlen (convexHull_subset ps h₁) (convexHull_subset ps h₂)
    rw [hsame, Point.cross_self_left]
  · have hsorted := sorted_pairwise ps
    have hback := sorted_reverse_pairwise hps
    obtain ⟨l, u, hl, hu, hlower, hupper, hhull⟩ := exists_chains hps
    rw [← mem_sorted, hps] at hp
    rw [hps] at hsorted
    rw [hhull, edges_chains] at he
    rcases List.mem_append.1 he with he | he
    · exact half_rightward.left_of_step hsorted hl hlower he hp
    · have hp : p ∈ b :: (m.reverse ++ [a]) := by
        rwa [← reverse_ends, List.mem_reverse]
      exact half_rightward.opposite.left_of_step hback hu hupper he hp

end TrackFusion
