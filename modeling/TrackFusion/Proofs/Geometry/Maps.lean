import TrackFusion.Proofs.Ordered
import TrackFusion.Proofs.Neighbours
import TrackFusion.Geometry.Hull

/-!
# Hulls of mapped points

All that a hull looks at is the order of the points, which of them are equal, and on which side of
a line between two points another one lies. Whatever map keeps that takes the hull to the hull, be
it to points with other scalars.

* `Polygon.circuit`: the two chains over some points, in whatever order they are.
* `Polygon.circuit_map`: maps that keep turns.
* `Polygon.sorted_map`: maps that keep the order.
-/

namespace TrackFusion

/-! ### The order of points -/

section order

variable {α : Type} [Scalar α] [OrderedScalar α]

/-- Points in order have their abscissas in order, and if these are the same, their ordinates. -/
theorem Point.order_ne_gt {α : Type} [Scalar α] {p q : Point α} (h : p.order q ≠ .gt) :
    Scalar.order p.x q.x ≠ .gt ∧ (Scalar.order p.x q.x = .eq → Scalar.order p.y q.y ≠ .gt) := by
  refine ⟨fun hx => h ?_, fun hx hy => h ?_⟩
  · rw [order, hx]
    rfl
  · rw [order, hx, hy]
    rfl

instance : Std.TransCmp fun p q : Point α => Scalar.order p.x q.x where
  eq_swap := Std.OrientedCmp.eq_swap
  isLE_trans := Std.TransCmp.isLE_trans

instance : Std.TransCmp fun p q : Point α => Scalar.order p.y q.y where
  eq_swap := Std.OrientedCmp.eq_swap
  isLE_trans := Std.TransCmp.isLE_trans

instance : Std.TransCmp (Point.order : Point α → Point α → Ordering) :=
  inferInstanceAs (Std.TransCmp (compareLex _ _))

theorem Point.order_trans {p q r : Point α} (hpq : p.order q ≠ .gt) (hqr : q.order r ≠ .gt) :
    p.order r ≠ .gt := by
  have htrans : (p.order r).isLE := Std.TransCmp.isLE_trans (Ordering.isLE_iff_ne_gt.2 hpq)
    (Ordering.isLE_iff_ne_gt.2 hqr)
  exact Ordering.isLE_iff_ne_gt.1 htrans

/-- Where the total order tells all numbers apart, it tells all points apart. -/
theorem Point.eq_of_order (hantisymm : ∀ x y : α, Scalar.order x y = .eq → x = y) {p q : Point α}
    (hpq : p.order q ≠ .gt) (hqp : q.order p ≠ .gt) : p = q := by
  have heq : p.order q = .eq := by
    rw [(Std.OrientedCmp.eq_swap : Point.order q p = _)] at hqp
    cases hord : p.order q with
    | lt => exact absurd (by rw [hord]; rfl) hqp
    | eq => rfl
    | gt => exact absurd hord hpq
  obtain ⟨hx, hy⟩ := Ordering.then_eq_eq.1 heq
  exact congrArg₂ Point.mk (hantisymm _ _ hx) (hantisymm _ _ hy)

end order

/-- The point with other coordinates. -/
def Point.map {α β : Type} (g : α → β) (p : Point α) : Point β := ⟨g p.x, g p.y⟩

namespace Polygon

variable {α β : Type} [Scalar α] [Scalar β] {f : Point α → Point β}

/-! ### Chains -/

/-- The two chains over some points, one there and one back. -/
def circuit (ts : List (Point α)) : List (Point α) := chain ts ++ (chain ts.reverse).tail.dropLast

theorem convexHull_eq_circuit (ps : List (Point α)) : convexHull ps = circuit (sorted ps) := by
  rw [convexHull]
  match sorted ps with
  | [] => rfl
  | [a] => rfl
  | [a, b] => rfl
  | a :: b :: c :: ts => exact if_neg (by simp)

/-- Points on the right of a line or on it stay there, and all others on its left. -/
def KeepsTurns (f : Point α → Point β) (ts : List (Point α)) : Prop :=
  ∀ o ∈ ts, ∀ a ∈ ts, ∀ b ∈ ts,
    Point.cross (f o) (f a) (f b) ≤ 0 ↔ Point.cross o a b ≤ 0

theorem KeepsTurns.subset {ts us : List (Point α)} (h : KeepsTurns f ts) (hsub : us ⊆ ts) :
    KeepsTurns f us :=
  fun o ho a ha b hb => h o (hsub ho) a (hsub ha) b (hsub hb)

theorem push_map {p : Point α} {c : List (Point α)} (h : KeepsTurns f (p :: c)) :
    push (f p) (c.map f) = (push p c).map f := by
  fun_induction push p c with
  | case1 b a rest hle ih =>
    have hturn := h a (by simp) b (by simp) p (by simp)
    rw [List.map_cons, List.map_cons, push, if_pos (hturn.2 hle)]
    exact ih (h.subset (by simp))
  | case2 b a rest hle =>
    have hturn := h a (by simp) b (by simp) p (by simp)
    rw [List.map_cons, List.map_cons, push, if_neg (mt hturn.1 hle)]
    rfl
  | case3 chain hchain =>
    match chain, hchain with
    | [], _ => rfl
    | [a], _ => rfl
    | b :: a :: rest, h => exact absurd rfl (h b a rest)

theorem push_sublist (p : Point α) (c : List (Point α)) : (push p c).Sublist (p :: c) := by
  fun_induction push p c with
  | case1 b a rest hle ih => exact ih.trans ((List.sublist_cons_self b _).cons_cons p)
  | case2 b a rest hlt => exact List.Sublist.refl _
  | case3 c hshort => exact List.Sublist.refl _

theorem foldl_push_sublist (ts c : List (Point α)) :
    (ts.foldl (fun c p => push p c) c).Sublist (ts.reverse ++ c) := by
  induction ts generalizing c with
  | nil => exact List.Sublist.refl _
  | cons p ts ih =>
    rw [List.foldl_cons, List.reverse_cons, List.append_assoc, List.singleton_append]
    exact (ih _).trans ((push_sublist p c).append_left ts.reverse)

theorem chain_sublist (ts : List (Point α)) : (chain ts).Sublist ts := by
  have hsub := (foldl_push_sublist ts []).reverse
  rwa [List.append_nil, List.reverse_reverse] at hsub

/-- A way around some points has none but these, and each of them at most twice. -/
theorem circuit_subset (ts : List (Point α)) : circuit ts ⊆ ts := by
  refine List.append_subset.2 ⟨(chain_sublist ts).subset, fun p hp => ?_⟩
  have hback := List.mem_of_mem_tail (List.mem_of_mem_dropLast hp)
  exact List.mem_reverse.1 ((chain_sublist ts.reverse).subset hback)

theorem length_circuit_le (ts : List (Point α)) : (circuit ts).length ≤ 2 * ts.length := by
  have hthere := (chain_sublist ts).length_le
  have hback := (chain_sublist ts.reverse).length_le
  rw [List.length_reverse] at hback
  rw [circuit, List.length_append, List.length_dropLast, List.length_tail]
  omega

theorem sorted_subset (ps : List (Point α)) : sorted ps ⊆ ps := fun _ hp =>
  List.mem_mergeSort.1 ((eraseReps_spec _).1.subset hp)

theorem foldl_push_map {ts c : List (Point α)} (h : KeepsTurns f (ts ++ c)) :
    (ts.map f).foldl (fun c p => push p c) (c.map f) =
      (ts.foldl (fun c p => push p c) c).map f := by
  induction ts generalizing c with
  | nil => rfl
  | cons p ts ih =>
    rw [List.map_cons, List.foldl_cons, List.foldl_cons, push_map (h.subset (by simp)), ih]
    refine h.subset (List.append_subset.2 ⟨by simp, fun q hq => ?_⟩)
    have := (push_sublist p c).subset hq
    grind

theorem chain_map {ts : List (Point α)} (h : KeepsTurns f ts) :
    chain (ts.map f) = (chain ts).map f := by
  rw [chain, chain, List.map_reverse, ← foldl_push_map (by rwa [List.append_nil])]
  rfl

/-- **Maps that keep turns** keep the way around some points. -/
theorem circuit_map {ts : List (Point α)} (h : KeepsTurns f ts) :
    circuit (ts.map f) = (circuit ts).map f := by
  have hback : KeepsTurns f ts.reverse := h.subset (List.reverse_subset.2 (List.Subset.refl ts))
  rw [circuit, circuit, ← List.map_reverse, chain_map h, chain_map hback, List.map_append,
    List.map_dropLast, List.map_tail]

theorem edges_map {ι κ : Type} (f : ι → κ) (l : List ι) :
    edges (l.map f) = (edges l).map (Prod.map f f) := by
  rw [edges, edges, ← List.zip_map, List.map_append, List.map_tail, List.head?_map,
    Option.toList_map]

/-! ### Areas -/

/-- What a side adds to twice the area. -/
def sideArea (e : Point α × Point α) : α := e.1.x * e.2.y - e.2.x * e.1.y

theorem signedArea_eq_foldl (ps : List (Point α)) : signedArea ps =
    if ps.length < 3 then 0 else 0.5 * (edges ps).foldl (fun acc e => acc + sideArea e) 0 := rfl

/-! ### Sorting -/

section sorted

variable [OrderedScalar α] [OrderedScalar β]

theorem pairwise_mergeSort_order (ps : List (Point α)) :
    (ps.mergeSort fun p q => p.order q != .gt).Pairwise fun p q => p.order q ≠ .gt := by
  have hsort : (ps.mergeSort fun p q => p.order q != .gt).Pairwise
      fun p q => (p.order q != .gt) = true := by
    refine List.pairwise_mergeSort (fun p q r hpq hqr => ?_) (fun p q => ?_) ps
    · exact bne_iff_ne.2 (Point.order_trans (bne_iff_ne.1 hpq) (bne_iff_ne.1 hqr))
    · rw [(Std.OrientedCmp.eq_swap : Point.order q p = _)]
      cases Point.order p q <;> rfl
  exact hsort.imp bne_iff_ne.1

/-- **Maps that keep the order** of points that is total. -/
theorem sorted_map {ps : List (Point α)}
    (horder : ∀ p ∈ ps, ∀ q ∈ ps, p.order q ≠ .gt → (f p).order (f q) ≠ .gt)
    (hantisymm : ∀ p q : Point β, p.order q ≠ .gt → q.order p ≠ .gt → p = q)
    (hbeq : ∀ p ∈ ps, ∀ q ∈ ps, (f p == f q) = (p == q)) :
    sorted (ps.map f) = (sorted ps).map f := by
  -- what the map makes of the sorted points is sorted, and there is one such arrangement
  have hmem : ∀ p ∈ ps.mergeSort (fun p q => p.order q != .gt), p ∈ ps :=
    fun p hp => List.mem_mergeSort.1 hp
  have hsort : (ps.map f).mergeSort (fun p q => p.order q != .gt) =
      (ps.mergeSort fun p q => p.order q != .gt).map f := by
    refine List.Perm.eq_of_pairwise (fun p q _ _ => hantisymm p q)
      (pairwise_mergeSort_order _) ?_
      ((List.mergeSort_perm _ _).trans ((List.mergeSort_perm ps _).symm.map f))
    rw [List.pairwise_map]
    refine (pairwise_mergeSort_order ps).imp_of_mem fun {p q} hp hq hpq => ?_
    exact horder p (hmem p hp) q (hmem q hq) hpq
  rw [sorted, sorted, hsort, eraseReps_map fun p hp q hq => hbeq p (hmem p hp) q (hmem q hq)]

end sorted

/-- What counts as one vertical line is sorted upwards. -/
def SortsUpwards (ps : List (Point α)) : Prop :=
  ∀ p ∈ ps, ∀ q ∈ ps, (p.x == q.x) = true → Scalar.order p.x q.x = .lt → p.y ≤ q.y

instance (ps : List (Point α)) : Decidable (SortsUpwards ps) :=
  inferInstanceAs (Decidable (∀ p ∈ ps, ∀ q ∈ ps, _ → _))

/-- A map keeps the order of some numbers, and which of them are equal. -/
structure KeepsOrder (g : α → β) (s : α → Prop) : Prop where
  isNaN {x : α} : s x → Scalar.isNaN x = false
  order {x y : α} : s x → s y → x ≤ y → Scalar.order (g x) (g y) ≠ .gt
  of_order {x y : α} : s x → s y → Scalar.order (g x) (g y) = .eq → (x == y) = true
  beq {x y : α} : s x → s y → (g x == g y) = (x == y)

section coordinates

variable [OrderedScalar α] {g : α → β} {s : α → Prop}

theorem KeepsOrder.order_map (h : KeepsOrder g s) {ps : List (Point α)}
    (hs : ∀ p ∈ ps, s p.x ∧ s p.y) (hsort : SortsUpwards ps) {p q : Point α} (hp : p ∈ ps)
    (hq : q ∈ ps) (hpq : p.order q ≠ .gt) : (p.map g).order (q.map g) ≠ .gt := by
  have hkeep {x y : α} (hx : s x) (hy : s y) (hxy : Scalar.order x y ≠ .gt) :
      Scalar.order (g x) (g y) ≠ .gt :=
    h.order hx hy (OrderedScalar.le_of_order hxy (h.isNaN hx) (h.isNaN hy))
  obtain ⟨hpx, hpy⟩ := hs p hp
  obtain ⟨hqx, hqy⟩ := hs q hq
  show (Scalar.order (g p.x) (g q.x)).then (Scalar.order (g p.y) (g q.y)) ≠ .gt
  obtain ⟨hx, hy⟩ := Point.order_ne_gt hpq
  have hgx := hkeep hpx hqx hx
  cases hgord : Scalar.order (g p.x) (g q.x) with
  | gt => exact absurd hgord hgx
  | lt => exact nofun
  | eq =>
    show Scalar.order (g p.y) (g q.y) ≠ .gt
    cases hord : Scalar.order p.x q.x with
    | gt => exact absurd hord hx
    | lt => exact h.order hpy hqy (hsort p hp q hq (h.of_order hpx hqx hgord) hord)
    | eq => exact hkeep hpy hqy (hy hord)

/-- **Maps of coordinates that keep their order** take sorted points to sorted points, if what they
take to one vertical line is sorted upwards. -/
theorem KeepsOrder.sorted_map [OrderedScalar β] (h : KeepsOrder g s) {ps : List (Point α)}
    (hs : ∀ p ∈ ps, s p.x ∧ s p.y) (hsort : SortsUpwards ps)
    (hantisymm : ∀ x y : β, Scalar.order x y = .eq → x = y) :
    sorted (ps.map (Point.map g)) = (sorted ps).map (Point.map g) := by
  refine Polygon.sorted_map (fun p hp q hq => h.order_map hs hsort hp hq)
    (fun p q => Point.eq_of_order hantisymm) fun p hp q hq => ?_
  show ((g p.x == g q.x) && (g p.y == g q.y)) = ((p.x == q.x) && (p.y == q.y))
  rw [h.beq (hs p hp).1 (hs q hq).1, h.beq (hs p hp).2 (hs q hq).2]

end coordinates

end Polygon

/-- A hull has none but the points that it is of. -/
theorem convexHull_subset {α : Type} [Scalar α] (ps : List (Point α)) :
    Polygon.convexHull ps ⊆ ps := by
  rw [Polygon.convexHull_eq_circuit]
  exact List.Subset.trans (Polygon.circuit_subset _) (Polygon.sorted_subset ps)

end TrackFusion
