import Mathlib
import TrackFusion.Proofs.Json.Scalars

/-!
# Reading lists, maps and records back

* `reads_listOf`, `reads_mapOf`: lists and maps of what is read back.
* `Member`: a field of a record with what is written for it, and what that is read as.
* `Value.without`, `Value.onMember`, `Value.onItems`: changes of a document.
* `reads_record`: **a record is read back from the members that its document has**, and keeps what
  it started with in the fields of the others.
-/

namespace TrackFusion.Json

theorem Blank.ends_append {ws rest : List Char} (h : Blank ws) (hr : Ends rest) :
    Ends (ws ++ rest) := by
  cases ws with
  | nil => exact hr
  | cons c ws => exact Ends.cons (h c (by simp)).inNumber _

theorem blank_separated {ws ws' : List Char} (hws : Blank ws) (hws' : Blank ws') (first : Bool)
    (cs : List Char) : blank (ws ++ (separator first ++ (ws' ++ cs))) =
      if first then blank cs else ',' :: (ws' ++ cs) := by
  rw [blank_append hws]
  cases first with
  | true => simp [separator, hws']
  | false => exact blank_cons_of_not_isBlank (by simp [IsBlank]) _

theorem blank_end {ws : List Char} (hws : Blank ws) {c : Char} (hc : ¬ IsBlank c)
    (cs : List Char) : blank (ws ++ (c :: cs)) = c :: cs := by
  rw [blank_append hws, blank_cons_of_not_isBlank hc]

/-! ### Lists -/

section lists

variable {α : Type} {item : Reader α} {ws ws' : List Char} {first : Bool}

theorem nextItem_item (hws : Blank ws) (hws' : Blank ws') {c : Char} (hc : ¬ IsBlank c)
    (hne : c ≠ ']') (cs : List Char) :
    nextItem first (ws ++ (separator first ++ (ws' ++ (c :: cs)))) = .ok (some (c :: cs)) := by
  rw [nextItem, blank_separated hws hws']
  cases first with
  | true => simp [blank_cons_of_not_isBlank hc]
  | false => simp [blank_end hws' hc, hne]

theorem nextItem_end (hws : Blank ws) (cs : List Char) :
    nextItem first (ws ++ (']' :: cs)) = .ok none := by
  rw [nextItem, blank_end hws (by simp [IsBlank])]
  rfl

theorem endItems_end (hws : Blank ws) (cs : List Char) : endItems (ws ++ (']' :: cs)) = .ok cs := by
  rw [endItems, blank_end hws (by simp [IsBlank])]
  rfl

/-- No number goes on into the next item. -/
theorem ItemLayout.ends {vs : List Value} {cs : List Char} (h : ItemLayout false vs cs)
    (rest : List Char) : Ends (cs ++ rest) := by
  cases h with
  | nil hws =>
    rw [List.append_assoc]
    exact hws.ends_append (Ends.cons rfl _)
  | cons hws _ _ _ =>
    rw [List.append_assoc]
    exact hws.ends_append (Ends.cons rfl _)

theorem ItemLayout.length_lt {vs : List Value} {cs : List Char} (h : ItemLayout false vs cs) :
    vs.length < cs.length := by
  induction vs generalizing cs with
  | nil =>
    cases h
    simp
  | cons v vs ih =>
    cases h with
    | cons _ _ _ hrest =>
      have := ih hrest
      simp [separator]
      omega

theorem ItemLayout.length_le {vs : List Value} {cs : List Char} (h : ItemLayout first vs cs) :
    vs.length ≤ cs.length := by
  cases h with
  | nil => simp
  | cons _ _ _ hrest =>
    have := hrest.length_lt
    simp
    omega

/-- The items that are left, as many as there are steps for. -/
theorem items_layout {vs : List Value} {xs : List α} (h : List.Forall₂ (Reads item) vs xs)
    (fuel : ℕ) : ∀ {first cs}, ItemLayout first vs cs → vs.length ≤ fuel → ∀ rest,
      Reader.items item (fuel + 1) first (cs ++ rest) = .ok (xs, rest) := by
  induction h generalizing fuel with
  | nil =>
    rintro first _ ⟨hws⟩ - rest
    rw [Reader.items, List.append_assoc, List.singleton_append, nextItem_end hws]
    simp [bind, Except.bind, endItems_end hws, pure, Except.pure]
  | @cons v x vs xs hv _ ih =>
    rintro first _ (_ | ⟨hws, hws', hcs, hrest⟩) hfuel rest
    rename_i ws ws' cs tail
    obtain ⟨fuel, rfl⟩ : ∃ k, fuel = k + 1 := ⟨fuel - 1, by simp at hfuel; omega⟩
    obtain ⟨c, cs', rfl, hc, hne⟩ := hv.starts cs hcs
    have hread := hv.read [] (c :: cs') (tail ++ rest) Blank.nil hcs (hrest.ends rest)
    have hnext := ih fuel hrest (by simpa using hfuel) rest
    rw [Reader.items]
    simp only [List.append_assoc, List.cons_append, nextItem_item hws hws' hc hne]
    simp only [List.nil_append, List.cons_append] at hread
    simp [bind, Except.bind, hread, hnext, pure, Except.pure]

theorem reads_listOf {vs : List Value} {xs : List α} (h : List.Forall₂ (Reads item) vs xs) :
    Reads (Reader.listOf item) (.arr vs) xs where
  starts := by
    rintro _ (_ | _ | _ | _ | @⟨_, cs, hcs⟩ | _)
    exact ⟨'[', cs, rfl, by simp [IsBlank], by decide⟩
  read := by
    rintro ws _ rest hws (_ | _ | _ | _ | @⟨_, cs, hcs⟩ | _) -
    rw [Reader.listOf, List.cons_append, blank_end hws (by simp [IsBlank])]
    refine items_layout h _ hcs ?_ rest
    have := hcs.length_le
    simp
    omega

end lists

/-! ### Keys -/

section keys

variable {ws ws' : List Char} {first : Bool}

theorem nextKey_key (hws : Blank ws) (hws' : Blank ws') (cs : List Char) :
    nextKey first (ws ++ (separator first ++ (ws' ++ ('"' :: cs)))) = .ok (.inl cs) := by
  rw [nextKey, blank_separated hws hws']
  cases first with
  | true => simp [blank_cons_of_not_isBlank (c := '"') (by simp [IsBlank])]
  | false => simp [blank_end hws' (c := '"') (by simp [IsBlank])]

theorem nextKey_end (hws : Blank ws) (cs : List Char) :
    nextKey first (ws ++ ('}' :: cs)) = .ok (.inr cs) := by
  rw [nextKey, blank_end hws (by simp [IsBlank])]
  rfl

theorem colon_append (hws : Blank ws) (cs : List Char) : colon (ws ++ (':' :: cs)) = .ok cs := by
  rw [colon, blank_end hws (by simp [IsBlank])]
  rfl

theorem MemberLayout.ends {ms : List (String × Value)} {cs : List Char}
    (h : MemberLayout false ms cs) (rest : List Char) : Ends (cs ++ rest) := by
  cases h with
  | nil hws =>
    rw [List.append_assoc]
    exact hws.ends_append (Ends.cons rfl _)
  | cons hws _ _ _ _ _ =>
    rw [List.append_assoc]
    exact hws.ends_append (Ends.cons rfl _)

theorem MemberLayout.length_le {ms : List (String × Value)} {cs : List Char}
    (h : MemberLayout first ms cs) : ms.length ≤ cs.length := by
  induction ms generalizing first cs with
  | nil => simp
  | cons m ms ih =>
    cases h with
    | cons _ _ _ _ _ hrest =>
      have := ih hrest
      simp
      omega

end keys

/-- A reader that takes the members of an object, `ms`, and makes `x` of them. -/
theorem reads_obj {α : Type} {r : Reader α} {ms : List (String × Value)} {x : α}
    (h : ∀ ws cs rest, Blank ws → MemberLayout true ms cs →
      r (ws ++ ('{' :: (cs ++ rest))) = .ok (x, rest)) : Reads r (.obj ms) x where
  starts := by
    rintro _ (_ | _ | _ | _ | _ | @⟨_, cs, hcs⟩)
    exact ⟨'{', cs, rfl, by simp [IsBlank], by decide⟩
  read := by
    rintro ws _ rest hws (_ | _ | _ | _ | _ | @⟨_, cs, hcs⟩) -
    exact h ws cs rest hws hcs

/-! ### Maps -/

section maps

variable {κ α : Type} {keys : List (String × κ)} {item : Reader α}

/-- A member of an object is an entry of a map. -/
def IsEntry (keys : List (String × κ)) (item : Reader α) (m : String × Value) (e : κ × α) : Prop :=
  keys.lookup m.1 = some e.1 ∧ Reads item m.2 e.2

theorem entries_layout {ms : List (String × Value)} {es : List (κ × α)}
    (h : List.Forall₂ (IsEntry keys item) ms es) (fuel : ℕ) :
    ∀ {first cs}, MemberLayout first ms cs → ms.length ≤ fuel → ∀ rest,
      Reader.entries keys item (fuel + 1) first (cs ++ rest) = .ok (es, rest) := by
  induction h generalizing fuel with
  | nil =>
    rintro first _ ⟨hws⟩ - rest
    rw [Reader.entries, List.append_assoc, List.singleton_append, nextKey_end hws]
    simp [bind, Except.bind, pure, Except.pure]
  | @cons m e ms es hm _ ih =>
    rintro first _ (_ | ⟨hws, hws', hws₁, hws₂, hcs, hrest⟩) hfuel rest
    rename_i k v ws ws' ws₁ ws₂ cs tail
    obtain ⟨fuel, rfl⟩ : ∃ k, fuel = k + 1 := ⟨fuel - 1, by simp at hfuel; omega⟩
    obtain ⟨hk, hv⟩ := hm
    have hread := hv.read ws₂ cs (tail ++ rest) hws₂ hcs (hrest.ends rest)
    have hnext := ih fuel hrest (by simpa using hfuel) rest
    rw [Reader.entries]
    simp only [List.append_assoc, quote_toList, List.cons_append, nextKey_key hws hws']
    simp [bind, Except.bind, stringBody_escape, hk, colon_append hws₁, hread, hnext, pure,
      Except.pure]

theorem reads_mapOf {ms : List (String × Value)} {es : List (κ × α)}
    (h : List.Forall₂ (IsEntry keys item) ms es) :
    Reads (Reader.mapOf keys item) (.obj ms) es := by
  refine reads_obj fun ws cs rest hws hcs => ?_
  rw [Reader.mapOf, blank_end hws (by simp [IsBlank])]
  refine entries_layout h _ hcs ?_ rest
  have := hcs.length_le
  simp
  omega

end maps

/-! ### Records -/

section records

variable {σ : Type} {fields : List (Reader.Field σ)}

/-- A member of an object is the one of a field, which it changes in some way. -/
def Assigns (fields : List (Reader.Field σ)) (m : String × Value) (g : σ → σ) : Prop :=
  ∃ f, fields.find? (fun f => f.name == m.1) = some f ∧ ∀ s, Reads (f.read s) m.2 (g s)

theorem fieldMembers_layout (hopt : ∀ f ∈ fields, f.required = false)
    {ms : List (String × Value)} {gs : List (σ → σ)} (h : List.Forall₂ (Assigns fields) ms gs)
    (fuel : ℕ) : ∀ {first cs} (seen : List String), MemberLayout first ms cs → ms.length ≤ fuel →
      (ms.map Prod.fst).Nodup → (∀ m ∈ ms, m.1 ∉ seen) → ∀ s rest,
      Reader.fieldMembers fields (fuel + 1) seen first s (cs ++ rest) =
        .ok (gs.foldl (fun s g => g s) s, rest) := by
  induction h generalizing fuel with
  | nil =>
    rintro first _ seen ⟨hws⟩ - - - s rest
    have hnone : ∀ f ∈ fields, f.required = true → f.name ∈ seen := by
      intro f hf h
      rw [hopt f hf] at h
      cases h
    rw [Reader.fieldMembers, List.append_assoc, List.singleton_append, nextKey_end hws]
    simpa [bind, Except.bind, pure, Except.pure] using hnone
  | @cons m g ms gs hm _ ih =>
    rintro first _ seen (_ | ⟨hws, hws', hws₁, hws₂, hcs, hrest⟩) hfuel hnodup hseen s rest
    rename_i k v ws ws' ws₁ ws₂ cs tail
    obtain ⟨fuel, rfl⟩ : ∃ k, fuel = k + 1 := ⟨fuel - 1, by simp at hfuel; omega⟩
    obtain ⟨f, hf, hv⟩ := hm
    obtain ⟨hk, hnodup⟩ := List.nodup_cons.1 hnodup
    have hnew : k ∉ seen := hseen (k, v) (by simp)
    -- the keys that are left are others than this one
    have hseen' : ∀ m ∈ ms, m.1 ∉ k :: seen := by
      intro m hm
      rw [List.mem_cons, not_or]
      refine ⟨?_, hseen m (by simp [hm])⟩
      intro heq
      exact hk (List.mem_map.2 ⟨m, hm, heq⟩)
    have hread := (hv s).read ws₂ cs (tail ++ rest) hws₂ hcs (hrest.ends rest)
    have hnext := ih fuel (k :: seen) hrest (by simpa using hfuel) hnodup hseen' (g s) rest
    rw [Reader.fieldMembers]
    simp only [List.append_assoc, quote_toList, List.cons_append, nextKey_key hws hws']
    simp [bind, Except.bind, stringBody_escape, hf, hnew, colon_append hws₁, hread, hnext]

/-- **A field of a record**, with the value that is written for it and what that is read as. -/
structure Member (σ : Type) : Type 1 where
  name : String
  Content : Type
  item : Reader Content
  get : σ → Content
  put : σ → Content → σ
  put_get : ∀ s, put s (get s) = s
  value : Value
  content : Content
  reads : Reads item value content

namespace Member

/-- The field whose contents are read by a reader. -/
def of {β : Type} {item : Reader β} {v : Value} {x : β} (name : String) (get : σ → β)
    (put : σ → β → σ) (put_get : ∀ s, put s (get s) = s) (reads : Reads item v x) : Member σ :=
  ⟨name, β, item, get, put, put_get, v, x, reads⟩

/-- The member in a document. -/
def entry (m : Member σ) : String × Value := (m.name, m.value)

/-- The field that reads it. -/
def field (m : Member σ) : Reader.Field σ := .optional m.name m.item m.put

/-- What becomes of a record: the contents of its members, but for those that are gone. -/
def fill (gone : String → Bool) (ms : List (Member σ)) (s : σ) : σ :=
  ms.foldl (fun s m => m.put s (if gone m.name then m.get s else m.content)) s

theorem field_reads (m : Member σ) (s : σ) :
    Reads (m.field.read s) m.value (m.put s m.content) where
  starts := m.reads.starts
  read ws cs rest hws hcs hr := by
    simp [field, Reader.Field.optional, bind, Except.bind, m.reads.read ws cs rest hws hcs hr, pure,
      Except.pure]

theorem find?_name {ms : List (Member σ)} (hnodup : (ms.map name).Nodup) {m : Member σ}
    (hm : m ∈ ms) : ms.find? (fun a => a.name == m.name) = some m := by
  induction ms with
  | nil => cases hm
  | cons a ms ih =>
    obtain ⟨ha, hnodup⟩ := List.nodup_cons.1 hnodup
    rcases List.mem_cons.1 hm with rfl | hm
    · simp
    · have hne : a.name ≠ m.name := fun h => ha (List.mem_map.2 ⟨m, hm, h.symm⟩)
      rw [List.find?_cons, beq_false_of_ne hne]
      exact ih hnodup hm

theorem assigns_field {ms : List (Member σ)} (hnodup : (ms.map name).Nodup) {m : Member σ}
    (hm : m ∈ ms) : Assigns (ms.map field) m.entry fun s => m.put s m.content := by
  refine ⟨m.field, ?_, m.field_reads⟩
  rw [List.find?_map, Option.map_eq_some_iff]
  exact ⟨m, find?_name hnodup hm, rfl⟩

/-- What is gone leaves its field alone. -/
theorem foldl_filter_eq_fill (gone : String → Bool) (ms : List (Member σ)) (s : σ) :
    ((ms.filter fun m => !gone m.name).map fun m s => m.put s m.content).foldl
      (fun s g => g s) s = fill gone ms s := by
  rw [List.foldl_map, List.foldl_filter, fill]
  congr 1
  funext s m
  cases gone m.name with
  | true => simp [m.put_get]
  | false => simp

end Member

end records

/-- An object without the members that are gone. -/
def Value.without (gone : String → Bool) : Value → Value
  | .obj ms => .obj (ms.filter fun m => !gone m.1)
  | v => v

/-- An object with one of its members changed. -/
def Value.onMember (key : String) (f : Value → Value) : Value → Value
  | .obj ms => .obj (ms.map fun m => if m.1 = key then (m.1, f m.2) else m)
  | v => v

/-- An array with its items changed, each by its place. -/
def Value.onItems (f : ℕ → Value → Value) : Value → Value
  | .arr vs => .arr (vs.mapIdx f)
  | v => v

/-- **A record is read back from its document without some members**, up to their fields, which keep
what the record started with. -/
theorem reads_record {σ : Type} (gone : String → Bool) (ms : List (Member σ))
    (hnodup : (ms.map Member.name).Nodup) (init : σ) :
    Reads (Reader.record (ms.map Member.field) init)
      ((Value.obj (ms.map Member.entry)).without gone) (Member.fill gone ms init) := by
  set shown := ms.filter fun m => !gone m.name
  have hdoc : (Value.obj (ms.map Member.entry)).without gone = .obj (shown.map Member.entry) := by
    rw [Value.without, List.filter_map]
    rfl
  have hopt : ∀ f ∈ ms.map Member.field, f.required = false := by
    intro f hf
    obtain ⟨m, -, rfl⟩ := List.mem_map.1 hf
    rfl
  have hassigns : List.Forall₂ (Assigns (ms.map Member.field)) (shown.map Member.entry)
      (shown.map fun m s => m.put s m.content) := by
    rw [List.forall₂_map_left_iff, List.forall₂_map_right_iff, List.forall₂_same]
    exact fun m hm => Member.assigns_field hnodup (List.mem_filter.1 hm).1
  have hnames : ((shown.map Member.entry).map Prod.fst).Nodup := by
    rw [List.map_map]
    exact hnodup.sublist (List.filter_sublist.map _)
  rw [hdoc, ← Member.foldl_filter_eq_fill]
  refine reads_obj fun ws cs rest hws hcs => ?_
  rw [Reader.record, blank_end hws (by simp [IsBlank])]
  refine fieldMembers_layout hopt hassigns _ [] hcs ?_ hnames (by simp) init rest
  have := hcs.length_le
  simp only [List.length_append]
  omega

end TrackFusion.Json
