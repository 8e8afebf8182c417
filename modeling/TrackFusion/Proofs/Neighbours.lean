import Mathlib.Data.List.Chain

/-!
# Lists without equal neighbours

`List.eraseReps` keeps the first of equal neighbours. Where equality only compares, the one that is
kept is not the same as the others; where it is lawful, nothing is lost.

* `eraseReps_cons_cons`: by the first two of a list.
* `eraseReps_spec`: what is kept.
* `eraseReps_map`: under a map that keeps equality.
* `mem_eraseReps`, `head?_filter_eraseReps`, `getLast?_filter_eraseReps`: with a lawful equality.
-/

namespace TrackFusion

variable {ι κ : Type} [BEq ι] [BEq κ]

/-- The loop carries the last one that it has kept, and the others in reverse. -/
theorem eraseReps_loop (a : ι) (l acc : List ι) :
    List.eraseRepsBy.loop (· == ·) a l acc = acc.reverse ++ (a :: l).eraseReps := by
  induction l generalizing a acc with
  | nil => simp [List.eraseReps, List.eraseRepsBy, List.eraseRepsBy.loop]
  | cons b l ih =>
    rw [List.eraseReps, List.eraseRepsBy, List.eraseRepsBy.loop, List.eraseRepsBy.loop]
    cases a == b with
    | true => rw [ih a acc, ih a [], List.reverse_nil, List.nil_append]
    | false => rw [ih b (a :: acc), ih b [a]]; simp

/-- Of two equal neighbours the first one is kept. -/
theorem eraseReps_cons_cons (a b : ι) (l : List ι) :
    (a :: b :: l).eraseReps = if a == b then (a :: l).eraseReps else a :: (b :: l).eraseReps := by
  rw [List.eraseReps, List.eraseRepsBy, List.eraseRepsBy.loop]
  cases a == b with
  | true => exact eraseReps_loop a l []
  | false => exact eraseReps_loop b l [a]

/-- Without equal neighbours, a list begins as before, is a part of what it was, and its neighbours
differ. -/
theorem exists_eraseReps_cons (a : ι) (l : List ι) : ∃ d,
    (a :: l).eraseReps = a :: d ∧ d.Sublist l ∧ (a :: d).IsChain fun a b => (a == b) = false := by
  induction l generalizing a with
  | nil => exact ⟨[], rfl, List.Sublist.refl _, .singleton a⟩
  | cons b l ih =>
    rw [eraseReps_cons_cons]
    split
    · obtain ⟨d, heq, hsub, hchain⟩ := ih a
      exact ⟨d, heq, hsub.cons b, hchain⟩
    · rename_i hab
      obtain ⟨d, heq, hsub, hchain⟩ := ih b
      refine ⟨b :: d, by rw [heq], hsub.cons_cons b, .cons_cons ?_ hchain⟩
      simpa using hab

theorem eraseReps_spec (l : List ι) :
    l.eraseReps.Sublist l ∧ l.eraseReps.IsChain fun a b => (a == b) = false := by
  cases l with
  | nil => exact ⟨List.Sublist.refl _, .nil⟩
  | cons a l =>
    obtain ⟨d, heq, hsub, hchain⟩ := exists_eraseReps_cons a l
    rw [heq]
    exact ⟨hsub.cons_cons a, hchain⟩

/-- Neighbours that are equal stay equal under a map that neither makes members equal nor tells them
apart. For the others it may do what it likes. -/
theorem eraseReps_map {f : ι → κ} {l : List ι} (hf : ∀ a ∈ l, ∀ b ∈ l, (f a == f b) = (a == b)) :
    (l.map f).eraseReps = l.eraseReps.map f := by
  have hcons (l : List ι) (a : ι)
      (hf : ∀ b ∈ a :: l, ∀ c ∈ a :: l, (f b == f c) = (b == c)) :
      (f a :: l.map f).eraseReps = ((a :: l).eraseReps).map f := by
    induction l generalizing a with
    | nil => rfl
    | cons b l ih =>
      rw [List.map_cons, eraseReps_cons_cons, eraseReps_cons_cons, hf a (by simp) b (by simp)]
      split
      · exact ih a fun c hc d hd => hf c (by grind) d (by grind)
      · rw [ih b fun c hc d hd => hf c (by grind) d (by grind), List.map_cons]
  cases l with
  | nil => rfl
  | cons a l => exact hcons l a hf

section lawful

variable [LawfulBEq ι]

theorem mem_eraseReps_cons (x a : ι) (l : List ι) : x ∈ (a :: l).eraseReps ↔ x ∈ a :: l := by
  induction l generalizing a with
  | nil => rfl
  | cons b l ih =>
    rw [eraseReps_cons_cons]
    split
    · obtain rfl := eq_of_beq ‹_›
      rw [ih]
      simp
    · rw [List.mem_cons, ih, ← List.mem_cons]

theorem mem_eraseReps (l : List ι) (x : ι) : x ∈ l.eraseReps ↔ x ∈ l := by
  cases l with
  | nil => rfl
  | cons a l => exact mem_eraseReps_cons x a l

/-- The first one with some property stays the first. -/
theorem head?_filter_eraseReps (p : ι → Bool) (l : List ι) :
    (l.eraseReps.filter p).head? = (l.filter p).head? := by
  induction l with
  | nil => rfl
  | cons a l ih =>
    rcases l with _ | ⟨b, l⟩
    · rfl
    · rw [eraseReps_cons_cons]
      split
      · obtain rfl := eq_of_beq ‹_›
        cases hp : p a <;> simp [ih, hp]
      · rw [List.filter_cons, List.filter_cons]
        split
        · rfl
        · exact ih

/-- The last one with some property stays the last. -/
theorem getLast?_filter_eraseReps (p : ι → Bool) (l : List ι) :
    (l.eraseReps.filter p).getLast? = (l.filter p).getLast? := by
  induction l with
  | nil => rfl
  | cons a l ih =>
    rcases l with _ | ⟨b, l⟩
    · rfl
    · rw [eraseReps_cons_cons]
      split
      · obtain rfl := eq_of_beq ‹_›
        cases hp : p a <;> simp [ih, hp]
      · rw [List.filter_cons, List.filter_cons]
        split
        · rw [List.getLast?_cons, List.getLast?_cons, ih]
        · exact ih

end lawful

end TrackFusion
