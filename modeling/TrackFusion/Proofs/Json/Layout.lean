import Mathlib
import TrackFusion.Json.Reader

/-!
# Layouts

A document can be written with white space before and after each of its parts.

* `Blank`: white space, which readers pass over (`blank_append`).
* `Layout`: what a text that spells a value looks like.
* `Spells`: the same of a whole text; `spells_pretty`: the text on indented lines spells its value.
-/

namespace TrackFusion.Json

/-- A character of white space. -/
def IsBlank (c : Char) : Prop := c = ' ' ∨ c = '\n' ∨ c = '\t' ∨ c = '\r'

/-- Nothing but white space. -/
def Blank (ws : List Char) : Prop := ∀ c ∈ ws, IsBlank c

theorem Blank.nil : Blank [] := by simp [Blank]

theorem blank_cons_of_isBlank {c : Char} (h : IsBlank c) (cs : List Char) :
    blank (c :: cs) = blank cs := by
  rw [blank, if_pos]
  rcases h with rfl | rfl | rfl | rfl <;> rfl

theorem blank_cons_of_not_isBlank {c : Char} (h : ¬ IsBlank c) (cs : List Char) :
    blank (c :: cs) = c :: cs := by
  rw [blank, if_neg]
  simpa [IsBlank, or_assoc] using h

@[simp] theorem blank_append {ws : List Char} (h : Blank ws) (cs : List Char) :
    blank (ws ++ cs) = blank cs := by
  induction ws with
  | nil => rfl
  | cons c ws ih =>
    rw [List.cons_append, blank_cons_of_isBlank (h c (by simp)),
      ih fun d hd => h d (List.mem_cons_of_mem _ hd)]

theorem blank_eq_nil {ws : List Char} (h : Blank ws) : blank ws = [] := by
  simpa [blank] using blank_append h []

/-- What stands between two items, and before the first one. -/
def separator (first : Bool) : List Char := if first then [] else [',']

mutual

/-- A text spells a value. -/
inductive Layout : Value → List Char → Prop
  | null : Layout .null ['n', 'u', 'l', 'l']
  | bool (b : Bool) : Layout (.bool b) (if b then "true" else "false").toList
  | num (literal : String) : Layout (.num literal) literal.toList
  | str (s : String) : Layout (.str s) (quote s).toList
  | arr {vs : List Value} {cs : List Char} : ItemLayout true vs cs → Layout (.arr vs) ('[' :: cs)
  | obj {ms : List (String × Value)} {cs : List Char} :
      MemberLayout true ms cs → Layout (.obj ms) ('{' :: cs)

/-- A text spells the items of an array, of which `first` is the first one, up to its end. -/
inductive ItemLayout : (first : Bool) → List Value → List Char → Prop
  | nil {first : Bool} {ws : List Char} : Blank ws → ItemLayout first [] (ws ++ [']'])
  | cons {first : Bool} {v : Value} {vs : List Value} {ws ws' cs rest : List Char} :
      Blank ws → Blank ws' → Layout v cs → ItemLayout false vs rest →
      ItemLayout first (v :: vs) (ws ++ (separator first ++ (ws' ++ (cs ++ rest))))

/-- A text spells the members of an object up to its end. -/
inductive MemberLayout : (first : Bool) → List (String × Value) → List Char → Prop
  | nil {first : Bool} {ws : List Char} : Blank ws → MemberLayout first [] (ws ++ ['}'])
  | cons {first : Bool} {k : String} {v : Value} {ms : List (String × Value)}
      {ws ws' ws₁ ws₂ cs rest : List Char} :
      Blank ws → Blank ws' → Blank ws₁ → Blank ws₂ → Layout v cs → MemberLayout false ms rest →
      MemberLayout first ((k, v) :: ms)
        (ws ++ (separator first ++ (ws' ++ ((quote k).toList ++
          (ws₁ ++ (':' :: (ws₂ ++ (cs ++ rest))))))))

end

/-! ### Indented lines -/

theorem blank_newline (depth : ℕ) : Blank (Value.newline depth).toList := by
  intro c hc
  simp only [Value.newline, String.toList_append, String.toList_ofList, List.mem_append,
    List.mem_replicate] at hc
  rcases hc with hc | ⟨-, rfl⟩
  · exact .inr (.inl (by simpa using hc))
  · exact .inl rfl

/-- An item on a line of its own. -/
theorem ItemLayout.cons_newline {first : Bool} {v : Value} {vs : List Value} {cs rest : List Char}
    (depth : ℕ) (hv : Layout v cs) (hvs : ItemLayout false vs rest) :
    ItemLayout first (v :: vs)
      (separator first ++ ((Value.newline depth).toList ++ (cs ++ rest))) := by
  have h : ItemLayout first (v :: vs)
      ([] ++ (separator first ++ ((Value.newline depth).toList ++ (cs ++ rest)))) :=
    .cons Blank.nil (blank_newline depth) hv hvs
  exact h

/-- A member on a line of its own, with a blank after the colon. -/
theorem MemberLayout.cons_newline {first : Bool} {k : String} {v : Value}
    {ms : List (String × Value)} {cs rest : List Char} (depth : ℕ) (hv : Layout v cs)
    (hms : MemberLayout false ms rest) :
    MemberLayout first ((k, v) :: ms)
      (separator first ++ ((Value.newline depth).toList ++ ((quote k).toList ++
        (':' :: ' ' :: (cs ++ rest))))) := by
  have hblank : Blank [' '] := by simp [Blank, IsBlank]
  have h : MemberLayout first ((k, v) :: ms)
      ([] ++ (separator first ++ ((Value.newline depth).toList ++ ((quote k).toList ++
        ([] ++ (':' :: ([' '] ++ (cs ++ rest)))))))) :=
    .cons Blank.nil (blank_newline depth) Blank.nil hblank hv hms
  exact h

mutual

theorem layout_prettyAt (depth : ℕ) : (v : Value) → Layout v (v.prettyAt depth).toList
  | .null => by simpa [Value.prettyAt] using Layout.null
  | .bool b => .bool b
  | .num l => .num l
  | .str s => .str s
  | .arr [] => by simpa [Value.prettyAt] using Layout.arr (.nil Blank.nil)
  | .arr (v :: vs) => by
    have h := layout_prettyItems (depth + 1) depth true (v :: vs) (by simp)
    simpa [Value.prettyAt, separator] using Layout.arr h
  | .obj [] => by simpa [Value.prettyAt] using Layout.obj (.nil Blank.nil)
  | .obj (m :: ms) => by
    have h := layout_prettyMembers (depth + 1) depth true (m :: ms) (by simp)
    simpa [Value.prettyAt, separator] using Layout.obj h

theorem layout_prettyItems (depth outer : ℕ) (first : Bool) : (vs : List Value) → vs ≠ [] →
    ItemLayout first vs (separator first ++ ((Value.prettyItems depth vs).toList ++
      ((Value.newline outer).toList ++ [']'])))
  | [], h => absurd rfl h
  | [v], _ => by
    have hend : ItemLayout false [] _ := .nil (blank_newline outer)
    simpa [Value.prettyItems] using hend.cons_newline depth (layout_prettyAt depth v)
  | v :: v' :: vs, _ => by
    have h := layout_prettyItems depth outer false (v' :: vs) (by simp)
    simpa [Value.prettyItems, separator] using h.cons_newline depth (layout_prettyAt depth v)

theorem layout_prettyMembers (depth outer : ℕ) (first : Bool) :
    (ms : List (String × Value)) → ms ≠ [] →
    MemberLayout first ms (separator first ++ ((Value.prettyMembers depth ms).toList ++
      ((Value.newline outer).toList ++ ['}'])))
  | [], h => absurd rfl h
  | [(k, v)], _ => by
    have hend : MemberLayout false [] _ := .nil (blank_newline outer)
    simpa [Value.prettyMembers] using hend.cons_newline depth (layout_prettyAt depth v)
  | (k, v) :: m :: ms, _ => by
    have h := layout_prettyMembers depth outer false (m :: ms) (by simp)
    simpa [Value.prettyMembers, separator] using h.cons_newline depth (layout_prettyAt depth v)

end

/-- A whole text spells a value. -/
def Spells (text : String) (v : Value) : Prop :=
  ∃ ws cs ws', Blank ws ∧ Layout v cs ∧ Blank ws' ∧ text.toList = ws ++ (cs ++ ws')

/-- **Text on indented lines spells its value.** -/
theorem spells_pretty (v : Value) : Spells v.pretty v :=
  ⟨[], _, [], Blank.nil, layout_prettyAt 0 v, Blank.nil, by simp [Value.pretty]⟩

end TrackFusion.Json
