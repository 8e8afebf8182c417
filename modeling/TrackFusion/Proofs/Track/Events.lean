import TrackFusion.Proofs.Roster.Ledger

/-!
# What happens to a track

A track is carried on, cut to its limits, given detections and left without one, in any order.

* `Track.Event`: the four things that can happen, with `Track.step` and `Track.after`.
* `Track.Meets`: some event of a run is of a kind, in the state that the track is in then.
* `Track.after_of_meets`, `after_of_not_meets`: what holds from such an event on, and before.
-/

namespace TrackFusion.Track

variable {α : Type}

/-- What can happen to a track. -/
inductive Event (α : Type) where
  | predict (now : Time α)
  | limit
  | measure (d : Detection α) (now : Time α) (ego : Isometry α)
  | miss

variable [Scalar α]

/-- The track after an event. One that cannot be carried on to a time stays as it is. -/
def step (t : Track α) : Event α → Track α
  | .predict now => t.carried now
  | .limit => t.limit
  | .measure d now ego => (t.measure d now ego).1
  | .miss => t.miss

/-- The track after some events. -/
def after (t : Track α) (events : List (Event α)) : Track α := events.foldl step t

@[simp] theorem after_nil (t : Track α) : t.after [] = t := rfl

@[simp] theorem after_cons (t : Track α) (e : Event α) (es : List (Event α)) :
    t.after (e :: es) = (t.step e).after es := rfl

/-- Some event of a run is of a kind, in the state that the track is in then. -/
def Meets (kind : Track α → Event α → Prop) (t : Track α) : List (Event α) → Prop
  | [] => False
  | e :: es => kind t e ∨ Meets kind (t.step e) es

/-- An event of a run is the one after some events and before others. -/
theorem meets_iff {kind : Track α → Event α → Prop} {t : Track α} {es : List (Event α)} :
    t.Meets kind es ↔ ∃ before e rest, es = before ++ e :: rest ∧ kind (t.after before) e := by
  induction es generalizing t with
  | nil => simp [Meets]
  | cons e es ih =>
    constructor
    · rintro (h | h)
      · exact ⟨[], e, es, rfl, h⟩
      · obtain ⟨before, e', rest, rfl, hkind⟩ := ih.1 h
        exact ⟨e :: before, e', rest, rfl, hkind⟩
    · rintro ⟨_ | ⟨e', before⟩, e'', rest, hes, hkind⟩
      · cases hes
        exact .inl hkind
      · cases hes
        exact .inr (ih.2 ⟨before, e'', rest, rfl, hkind⟩)

variable {kind : Track α → Event α → Prop} {I P : Track α → Prop} {t : Track α}
  {es : List (Event α)}

/-- What events of a kind bring about and all events keep holds from such an event on. It may rest
on an invariant. -/
theorem after_of_meets (hI : I t) (hstep : ∀ t e, I t → I (t.step e))
    (hstart : ∀ t e, I t → kind t e → P (t.step e))
    (hkeep : ∀ t e, I t → P t → P (t.step e)) (h : t.Meets kind es) : P (t.after es) := by
  -- once it holds, nothing but the steps that keep it is left
  have hrest : ∀ (es : List (Event α)) (t : Track α), I t → P t → P (t.after es) := by
    intro es
    induction es with
    | nil => exact fun t _ hP => hP
    | cons e es ih => exact fun t hI hP => ih _ (hstep t e hI) (hkeep t e hI hP)
  induction es generalizing t with
  | nil => cases h
  | cons e es ih =>
    rcases h with h | h
    · exact hrest es _ (hstep t e hI) (hstart t e hI h)
    · exact ih (hstep t e hI) h

/-- What all other events keep holds until there is one of a kind. -/
theorem after_of_not_meets (hP : P t) (hkeep : ∀ t e, ¬ kind t e → P t → P (t.step e))
    (h : ¬ t.Meets kind es) : P (t.after es) := by
  induction es generalizing t with
  | nil => exact hP
  | cons e es ih =>
    obtain ⟨hkind, hes⟩ := not_or.1 h
    exact ih (hkeep t e hkind hP) hes

end TrackFusion.Track
