import TrackFusion.Proofs.Dyadics
import TrackFusion.Proofs.Geometry.Sides

/-!
# Points on a grid

Small multiples of a power of two have so few digits that turns and areas are computed without
rounding: a hull of doubles is then that of the numbers they stand for, if only these come in the
same order.

* `Grid`: multiples of a power of two that are small for a number of points.
* `Grid.value_cross`, `Grid.keepsTurns`: turns.
* `Grid.value_signedArea`, `Grid.area_eq`: areas.
-/

namespace TrackFusion

open Binary64 (OnGrid value)
open Point (cross)

/-- Multiples of a power of two, small enough that `n` points are computed with exactly. -/
structure Grid (n : ℕ) where
  /-- The exponent of the power of two. -/
  e : ℤ
  /-- The greatest multiple. -/
  b : ℤ
  lower : -500 ≤ e
  upper : e ≤ 400
  small : (4 * n + 8) * b ^ 2 < 2 ^ 53

namespace Grid

variable {n : ℕ} (g : Grid n)

/-- The points of a grid. -/
def Mem (p : Point Float) : Prop := OnGrid g.e g.b p.x ∧ OnGrid g.e g.b p.y

instance (p : Point Float) : Decidable (g.Mem p) :=
  have he : -1074 ≤ g.e := le_trans (by decide) g.lower
  decidable_of_iff' _ (and_congr (OnGrid.iff_units he) (OnGrid.iff_units he))

variable {g} {o a b : Point Float}

/-! ### Turns -/

theorem sq_bound : 8 * g.b ^ 2 < 2 ^ 53 ∧ g.b < 2 ^ 52 := by
  have hsmall := g.small
  have hn : (0 : ℤ) ≤ n * g.b ^ 2 := by positivity
  have hself := Int.le_self_sq g.b
  constructor
  · linarith
  · linarith

/-- **Turns are computed without rounding.** -/
theorem value_cross (ho : g.Mem o) (ha : g.Mem a) (hb : g.Mem b) :
    (cross o a b).isFinite = true ∧
      value (cross o a b) = cross (o.map value) (a.map value) (b.map value) := by
  obtain ⟨hsq, hlt⟩ := g.sq_bound
  have hlower := g.lower
  have hupper := g.upper
  have hsub {x y : Float} (hx : OnGrid g.e g.b x) (hy : OnGrid g.e g.b y) :=
    hx.sub hy (by omega) (by omega) (by omega)
  have hmul {x y : Float} (hx : OnGrid g.e (g.b + g.b) x) (hy : OnGrid g.e (g.b + g.b) y) :=
    hx.mul hy (by omega) (by omega) (by omega) (by omega) (by linarith)
  obtain ⟨hax, hvax⟩ := hsub ha.1 ho.1
  obtain ⟨hay, hvay⟩ := hsub ha.2 ho.2
  obtain ⟨hbx, hvbx⟩ := hsub hb.1 ho.1
  obtain ⟨hby, hvby⟩ := hsub hb.2 ho.2
  obtain ⟨hleft, hvleft⟩ := hmul hax hby
  obtain ⟨hright, hvright⟩ := hmul hay hbx
  obtain ⟨hgrid, hvalue⟩ := hleft.sub hright (by omega) (by omega) (by linarith)
  refine ⟨hgrid.isFinite, hvalue.trans ?_⟩
  rw [hvleft, hvright, hvax, hvay, hvbx, hvby]
  rfl

theorem keepsTurns {ts : List (Point Float)} (h : ∀ p ∈ ts, g.Mem p) :
    Polygon.KeepsTurns (Point.map value) ts := by
  intro o ho a ha b hb
  obtain ⟨hfin, hvalue⟩ := value_cross (h o ho) (h a ha) (h b hb)
  have hle := Binary64.value_le_iff (y := 0) hfin rfl
  rw [Binary64.value_zero, hvalue] at hle
  exact hle

/-! ### Areas -/

theorem value_sideArea {s : Point Float × Point Float} (h : g.Mem s.1 ∧ g.Mem s.2) :
    OnGrid (g.e + g.e) (2 * g.b ^ 2) (Polygon.sideArea s) ∧
      value (Polygon.sideArea s) =
        Polygon.sideArea (Prod.map (Point.map value) (Point.map value) s) := by
  obtain ⟨hsq, -⟩ := g.sq_bound
  have hlower := g.lower
  have hupper := g.upper
  have hmul {x y : Float} (hx : OnGrid g.e g.b x) (hy : OnGrid g.e g.b y) :=
    hx.mul hy (by omega) (by omega) (by omega) (by omega) (by linarith)
  obtain ⟨hleft, hvleft⟩ := hmul h.1.1 h.2.2
  obtain ⟨hright, hvright⟩ := hmul h.2.1 h.1.2
  obtain ⟨hgrid, hvalue⟩ := hleft.sub hright (by omega) (by omega) (by linarith)
  refine ⟨?_, hvalue.trans ?_⟩
  · rwa [two_mul, pow_two]
  · rw [hvleft, hvright]
    rfl

theorem value_foldl {ss : List (Point Float × Point Float)}
    (h : ∀ s ∈ ss, g.Mem s.1 ∧ g.Mem s.2) {acc : Float} {c : ℤ} (hacc : OnGrid (g.e + g.e) c acc)
    (hc : c + ss.length * (2 * g.b ^ 2) < 2 ^ 53) :
    OnGrid (g.e + g.e) (c + ss.length * (2 * g.b ^ 2))
        (ss.foldl (fun acc s => acc + Polygon.sideArea s) acc) ∧
      value (ss.foldl (fun acc s => acc + Polygon.sideArea s) acc) =
        (ss.map (Prod.map (Point.map value) (Point.map value))).foldl
          (fun acc s => acc + Polygon.sideArea s) (value acc) := by
  induction ss generalizing acc c with
  | nil => exact ⟨by simpa using hacc, rfl⟩
  | cons s ss ih =>
    have hlower := g.lower
    have hupper := g.upper
    -- each side takes its share of the bound
    have hcount : c + ((s :: ss).length : ℤ) * (2 * g.b ^ 2) =
        c + 2 * g.b ^ 2 + ss.length * (2 * g.b ^ 2) := by
      push_cast [List.length_cons]
      ring
    have hrest : (0 : ℤ) ≤ ss.length * (2 * g.b ^ 2) := by positivity
    rw [hcount] at hc ⊢
    obtain ⟨hside, hvside⟩ := value_sideArea (h s (by simp))
    obtain ⟨hsum, hvsum⟩ := hacc.add hside (by omega) (by omega) (by linarith)
    obtain ⟨hgrid, hvalue⟩ := ih (fun t ht => h t (List.mem_cons_of_mem s ht)) hsum hc
    refine ⟨hgrid, hvalue.trans ?_⟩
    rw [hvsum, hvside]
    rfl

/-- **Areas are computed without rounding.** -/
theorem value_signedArea {ps : List (Point Float)} (h : ∀ p ∈ ps, g.Mem p)
    (hlen : ps.length ≤ 2 * n) : (Polygon.signedArea ps).isFinite = true ∧
      value (Polygon.signedArea ps) = Polygon.signedArea (ps.map (Point.map value)) := by
  rw [Polygon.signedArea_eq_foldl, Polygon.signedArea_eq_foldl, List.length_map]
  split
  · exact ⟨rfl, Binary64.value_zero⟩
  · have hlower := g.lower
    have hupper := g.upper
    have hcount : ((Polygon.edges ps).length : ℤ) ≤ 2 * n := by
      have : (Polygon.edges ps).length ≤ ps.length := by simp [Polygon.edges]
      exact_mod_cast this.trans hlen
    have hsmall : 0 + ((Polygon.edges ps).length : ℤ) * (2 * g.b ^ 2) < 2 ^ 53 := by
      have := mul_le_mul_of_nonneg_right hcount (by positivity : 0 ≤ 2 * g.b ^ 2)
      have := g.small
      nlinarith [sq_nonneg g.b]
    obtain ⟨hsum, hvsum⟩ := value_foldl (g := g) (fun s hs =>
      ⟨h _ (mem_of_mem_edges hs).1, h _ (mem_of_mem_edges hs).2⟩) OnGrid.zero hsmall
    obtain ⟨hgrid, hvalue⟩ := OnGrid.half.mul hsum (by omega) (by omega) (by omega) (by omega)
      (by linarith)
    refine ⟨hgrid.isFinite, hvalue.trans ?_⟩
    rw [hvsum, Polygon.edges_map, Binary64.value_zero, Binary64.value_half,
      ExactScalar.ofScientific_eq]
    norm_num

/-- Polygons with the same vertices have the same area, at whichever they begin. -/
theorem area_eq {ps qs : List (Point Float)} (hps : ∀ p ∈ ps, g.Mem p) (hqs : ∀ q ∈ qs, g.Mem q)
    (hlen : ps.length ≤ 2 * n)
    (hrot : (ps.map (Point.map value)).IsRotated (qs.map (Point.map value))) :
    Polygon.area ps = Polygon.area qs := by
  have hlen' : qs.length ≤ 2 * n := by
    have := hrot.perm.length_eq
    rw [List.length_map, List.length_map] at this
    omega
  obtain ⟨hfin, hvalue⟩ := value_signedArea hps hlen
  obtain ⟨hfin', hvalue'⟩ := value_signedArea hqs hlen'
  have heq : value (Polygon.signedArea ps) = value (Polygon.signedArea qs) := by
    rw [hvalue, hvalue', signedArea_eq, signedArea_eq, twiceArea_of_isRotated hrot]
  exact (Binary64.same_of_beq ((Binary64.value_eq_iff hfin hfin').1 heq)).abs_eq

end Grid

end TrackFusion
