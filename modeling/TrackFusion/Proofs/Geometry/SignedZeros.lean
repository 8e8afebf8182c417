import TrackFusion.Proofs.Geometry.Maps
import TrackFusion.Proofs.Zeros

/-!
# Hulls of points with signed zeros

Without the signs of zeros, points compare as before and turn as before; only the total order takes
the two zeros for one. So the hull stays what it is if points that are sorted by the sign of a zero
are sorted by their ordinates, too.

* `Point.Same`, `beq_iff_map_plain`: points that compare as equal.
* `convexHull_plain`, `area_map_plain`: hulls and areas without the signs of zeros.
* `sameHull_of_sortsUpwards`: the hulls of equal points.
-/

namespace TrackFusion

open Binary64 (Same plain same_plain plain_eq_plain)

/-! ### Points -/

namespace Point

/-- Points with the same coordinates, but for the signs of zeros. -/
def Same (p q : Point Float) : Prop := Binary64.Same p.x q.x ∧ Binary64.Same p.y q.y

/-- A point whose coordinates are numbers. -/
def IsNumber (p : Point Float) : Prop := p.x.isNaN = false ∧ p.y.isNaN = false

theorem same_map_plain (p : Point Float) : p.Same (p.map plain) := ⟨same_plain _, same_plain _⟩

theorem Same.cross {o o' a a' b b' : Point Float} (ho : o.Same o') (ha : a.Same a')
    (hb : b.Same b') : Binary64.Same (Point.cross o a b) (Point.cross o' a' b') :=
  ((ha.1.sub ho.1).mul (hb.2.sub ho.2)).sub ((ha.2.sub ho.2).mul (hb.1.sub ho.1))

theorem beq_iff {p q : Point Float} :
    (p == q) = true ↔ (p.x == q.x) = true ∧ (p.y == q.y) = true := by
  show ((p.x == q.x) && (p.y == q.y)) = true ↔ _
  rw [Bool.and_eq_true]

/-- Points compare as equal if they are the same without the signs of zeros. -/
theorem beq_iff_map_plain {p q : Point Float} (hq : q.IsNumber) :
    (p == q) = true ↔ p.map plain = q.map plain := by
  rw [beq_iff, Point.map, Point.map, Point.mk.injEq, Binary64.beq_iff_plain hq.1,
    Binary64.beq_iff_plain hq.2]

end Point

namespace Polygon

theorem keepsOrder_plain : KeepsOrder plain fun x => x.isNaN = false where
  isNaN h := h
  order {x y} hx hy hxy := by
    have hle := (Binary64.le_iff_place.1 hxy).2.2
    have hrank : Binary64.rank (plain x) ≤ Binary64.rank (plain y) := by
      rw [Binary64.rank_plain, Binary64.rank_plain]
      split <;> split <;> omega
    exact compare_le_iff_le.2 hrank
  of_order {x y} hx hy h := by
    have heq : Binary64.rank (plain x) = Binary64.rank (plain y) := compare_eq_iff_eq.1 h
    refine Binary64.beq_iff_place.2 ⟨hx, hy, ?_⟩
    rw [Binary64.rank_plain, Binary64.rank_plain] at heq
    split at heq <;> split at heq <;> omega
  beq _ _ := ((same_plain _).beq (same_plain _)).symm

theorem keepsTurns_plain (ts : List (Point Float)) : KeepsTurns (Point.map plain) ts :=
  fun o _ a _ b _ => ((o.same_map_plain.cross a.same_map_plain b.same_map_plain).le_iff
    (.refl 0)).symm

/-- **The signs of zeros do not matter to a hull** that is sorted upwards. -/
theorem convexHull_plain {ps : List (Point Float)} (hnum : ∀ p ∈ ps, p.IsNumber)
    (hsort : SortsUpwards ps) :
    convexHull (ps.map (Point.map plain)) = (convexHull ps).map (Point.map plain) := by
  have hsorted := keepsOrder_plain.sorted_map hnum hsort Binary64.eq_of_order
  rw [convexHull_eq_circuit, hsorted, circuit_map (keepsTurns_plain _), ← convexHull_eq_circuit]

/-- Nor do they to an area. -/
theorem area_map_plain (ps : List (Point Float)) : area (ps.map (Point.map plain)) = area ps := by
  -- the sums differ at most in the sign of a zero, and a magnitude has none
  have hfold (es : List (Point Float × Point Float)) {acc acc' : Float} (h : Same acc acc') :
      Same (es.foldl (fun acc e => acc + sideArea e) acc)
        ((es.map (Prod.map (Point.map plain) (Point.map plain))).foldl
          (fun acc e => acc + sideArea e) acc') := by
    induction es generalizing acc acc' with
    | nil => exact h
    | cons e es ih =>
      have ha := e.1.same_map_plain
      have hb := e.2.same_map_plain
      exact ih (h.add ((ha.1.mul hb.2).sub (hb.1.mul ha.2)))
  have hsigned : Same (signedArea ps) (signedArea (ps.map (Point.map plain))) := by
    rw [signedArea_eq_foldl, signedArea_eq_foldl, List.length_map, edges_map]
    split
    · exact .refl _
    · exact (Same.refl 0.5).mul (hfold _ (.refl 0))
  exact hsigned.abs_eq.symm

/-! ### Hulls of equal points -/

/-- Two lists of points have the same hull if its vertices compare as equal, from whichever of them
the hull is read, and the areas are equal. -/
def SameHull (ps qs : List (Point Float)) : Prop :=
  (∃ k, List.Forall₂ (fun p q => (p == q) = true) ((convexHull ps).rotate k) (convexHull qs)) ∧
    area (convexHull ps) = area (convexHull qs)

/-- Lists that compare as equal are the same under a map that keeps just what is equal. -/
theorem forall₂_iff_map_eq {ι κ : Type} {r : ι → ι → Prop} {f : ι → κ} {l l' : List ι}
    (h : ∀ a ∈ l, ∀ b ∈ l', r a b ↔ f a = f b) : List.Forall₂ r l l' ↔ l.map f = l'.map f := by
  induction l generalizing l' with
  | nil => cases l' <;> simp
  | cons a l ih =>
    cases l' with
    | nil => simp
    | cons b l' =>
      rw [List.forall₂_cons, List.map_cons, List.map_cons, List.cons.injEq, h a (by simp) b (by simp),
        ih fun c hc d hd => h c (List.mem_cons_of_mem a hc) d (List.mem_cons_of_mem b hd)]

theorem forall_mem_of_forall₂ {ι : Type} {r : ι → ι → Prop} {P Q : ι → Prop} {l l' : List ι}
    (h : List.Forall₂ r l l') (hr : ∀ a b, r a b → P a → Q b) (hl : ∀ a ∈ l, P a) :
    ∀ b ∈ l', Q b := by
  induction h with
  | nil => simp
  | cons hab _ ih =>
    rw [List.forall_mem_cons] at hl ⊢
    exact ⟨hr _ _ hab hl.1, ih hl.2⟩

/-- What compares as equal to anything is a number. -/
theorem isNumber_of_forall₂ {ps qs : List (Point Float)}
    (h : List.Forall₂ (fun p q => (p == q) = true) ps qs) :
    (∀ p ∈ ps, p.IsNumber) ∧ ∀ q ∈ qs, q.IsNumber := by
  have hboth {p q : Point Float} (hpq : (p == q) = true) : p.IsNumber ∧ q.IsNumber := by
    obtain ⟨hx, hy⟩ := Point.beq_iff.1 hpq
    obtain ⟨hpx, hqx, -⟩ := Binary64.beq_iff_place.1 hx
    obtain ⟨hpy, hqy, -⟩ := Binary64.beq_iff_place.1 hy
    exact ⟨⟨hpx, hpy⟩, hqx, hqy⟩
  constructor
  · exact forall_mem_of_forall₂ (P := fun _ => True) h.flip (fun q p hpq _ => (hboth hpq).1)
      fun _ _ => trivial
  · exact forall_mem_of_forall₂ (P := fun _ => True) h (fun p q hpq _ => (hboth hpq).2)
      fun _ _ => trivial

/-- **Equal points that are sorted upwards have the same hull.** -/
theorem sameHull_of_sortsUpwards {ps qs : List (Point Float)}
    (h : List.Forall₂ (fun p q => (p == q) = true) ps qs) (hps : SortsUpwards ps)
    (hqs : SortsUpwards qs) : SameHull ps qs := by
  obtain ⟨hpn, hqn⟩ := isNumber_of_forall₂ h
  have hiff {us ts : List (Point Float)} (hts : ∀ q ∈ ts, q.IsNumber) :
      List.Forall₂ (fun p q => (p == q) = true) us ts ↔
        us.map (Point.map plain) = ts.map (Point.map plain) :=
    forall₂_iff_map_eq fun p _ q hq => Point.beq_iff_map_plain (hts q hq)
  have hplain := (hiff hqn).1 h
  have hhull : (convexHull ps).map (Point.map plain) = (convexHull qs).map (Point.map plain) := by
    rw [← convexHull_plain hpn hps, hplain, convexHull_plain hqn hqs]
  refine ⟨⟨0, ?_⟩, ?_⟩
  · rw [List.rotate_zero]
    exact (hiff fun q hq => hqn q (convexHull_subset qs hq)).2 hhull
  · rw [← area_map_plain, hhull, area_map_plain]

end Polygon

end TrackFusion
