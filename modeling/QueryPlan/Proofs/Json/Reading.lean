import QueryPlan.Proofs.Json.Layouts

/-!
# Reading JSON documents back

A document is read back from its tokens, whatever follows them, once the depth is twice the
number of tokens.  Together with the tokens of the layouts this gives the document back from
either of its texts.
-/

namespace QueryPlan.Json

open Token

/-- Induction on documents: what passes from the parts of a document to the document holds of
every document. -/
theorem inductionOn {motive : Json → Prop} (json : Json) (null : motive null)
    (bool : ∀ value, motive (bool value)) (number : ∀ value, motive (number value))
    (string : ∀ body, motive (string body))
    (array : ∀ items, (∀ item ∈ items, motive item) → motive (array items))
    (object : ∀ members, (∀ member ∈ members, motive member.2) → motive (object members)) :
    motive json := by
  refine @Json.rec motive (fun items => ∀ item ∈ items, motive item)
    (fun members => ∀ member ∈ members, motive member.2) (fun member => motive member.2)
    null bool number string array object ?_ ?_ ?_ ?_ (fun _ _ hvalue => hvalue) json
  · simp
  · exact fun _ _ hfirst hrest => List.forall_mem_cons.mpr ⟨hfirst, hrest⟩
  · simp
  · exact fun _ _ hfirst hrest => List.forall_mem_cons.mpr ⟨hfirst, hrest⟩

/-- A document is read from its tokens, whatever follows them. -/
def Reads (json : Json) : Prop :=
  ∀ depth rest, 2 * json.tokens.length ≤ depth + 1 →
    readValue depth (json.tokens ++ rest) = some (json, rest)

theorem tokens_length_pos (json : Json) : 0 < json.tokens.length := by
  cases json <;> simp [tokens]

/-! ## Items -/

theorem readItems_of_last {depth : Nat} {tokens rest : List Token} {item : Json}
    (hitem : readValue depth tokens = some (item, .mark ']' :: rest)) :
    readItems (depth + 1) tokens = some ([item], rest) := by
  simp [readItems, hitem]

theorem readItems_of_comma {depth : Nat} {tokens rest after : List Token} {item : Json}
    {items : List Json} (hitem : readValue depth tokens = some (item, .mark ',' :: rest))
    (hrest : readItems depth rest = some (items, after)) :
    readItems (depth + 1) tokens = some (item :: items, after) := by
  simp [readItems, hitem, hrest]

theorem readItems_tokens {items : List Json} (hne : items ≠ [])
    (hitems : ∀ item ∈ items, item.Reads) {depth : Nat} (rest : List Token)
    (hdepth : 2 * ([mark ','].intercalate (itemTokens items)).length ≤ depth) :
    readItems depth ([mark ','].intercalate (itemTokens items) ++ .mark ']' :: rest)
      = some (items, rest) := by
  induction items generalizing depth with
  | nil => exact absurd rfl hne
  | cons item items ih =>
      obtain ⟨hitem, hothers⟩ := List.forall_mem_cons.mp hitems
      have hpos := item.tokens_length_pos
      cases items with
      | nil =>
          rw [itemTokens, itemTokens, List.intercalate_singleton] at hdepth ⊢
          obtain ⟨depth, rfl⟩ : ∃ n, depth = n + 1 := ⟨depth - 1, by omega⟩
          exact readItems_of_last (hitem depth _ (by omega))
      | cons next items =>
          rw [itemTokens, itemTokens, List.intercalate_cons_cons, ← itemTokens] at hdepth ⊢
          simp only [List.length_append, List.length_singleton] at hdepth
          obtain ⟨depth, rfl⟩ : ∃ n, depth = n + 1 := ⟨depth - 1, by omega⟩
          rw [List.append_assoc, List.append_assoc]
          exact readItems_of_comma (hitem depth _ (by omega))
            (ih (by simp) hothers (by omega))

/-! ## Members -/

theorem readMembers_of_last {depth : Nat} {tokens rest : List Token} {name : List Char}
    {value : Json} (hvalue : readValue depth tokens = some (value, .mark '\x7d' :: rest)) :
    readMembers (depth + 1) (.string name :: .mark ':' :: tokens)
      = some ([(name, value)], rest) := by
  simp [readMembers, hvalue]

theorem readMembers_of_comma {depth : Nat} {tokens rest after : List Token}
    {name : List Char} {value : Json} {members : List (List Char × Json)}
    (hvalue : readValue depth tokens = some (value, .mark ',' :: rest))
    (hrest : readMembers depth rest = some (members, after)) :
    readMembers (depth + 1) (.string name :: .mark ':' :: tokens)
      = some ((name, value) :: members, after) := by
  simp [readMembers, hvalue, hrest]

theorem readMembers_tokens {members : List (List Char × Json)} (hne : members ≠ [])
    (hmembers : ∀ member ∈ members, member.2.Reads) {depth : Nat} (rest : List Token)
    (hdepth : 2 * ([mark ','].intercalate (memberTokens members)).length ≤ depth) :
    readMembers depth ([mark ','].intercalate (memberTokens members) ++ .mark '\x7d' :: rest)
      = some (members, rest) := by
  induction members generalizing depth with
  | nil => exact absurd rfl hne
  | cons member members ih =>
      obtain ⟨name, value⟩ := member
      obtain ⟨hvalue : value.Reads, hothers⟩ := List.forall_mem_cons.mp hmembers
      cases members with
      | nil =>
          rw [memberTokens, memberTokens, List.intercalate_singleton] at hdepth ⊢
          simp only [List.length_cons] at hdepth
          obtain ⟨depth, rfl⟩ : ∃ n, depth = n + 1 := ⟨depth - 1, by omega⟩
          exact readMembers_of_last (hvalue depth _ (by omega))
      | cons next members =>
          obtain ⟨following, other⟩ := next
          rw [memberTokens, memberTokens, List.intercalate_cons_cons, ← memberTokens]
            at hdepth ⊢
          simp only [List.length_append, List.length_cons, List.length_nil] at hdepth
          obtain ⟨depth, rfl⟩ : ∃ n, depth = n + 1 := ⟨depth - 1, by omega⟩
          rw [List.append_assoc, List.append_assoc]
          exact readMembers_of_comma (hvalue depth _ (by omega))
            (ih (by simp) hothers (by omega))

/-! ## Documents -/

/-- A closing bracket is no item, so a row of items does not begin with one. -/
theorem readValue_of_items {depth : Nat} {row after : List Token} {items : List Json}
    (hitems : readItems depth row = some (items, after)) :
    readValue (depth + 1) (.mark '[' :: row) = some (.array items, after) := by
  rw [readValue]
  · rw [hitems, Option.map_some]
  · rintro rest rfl
    cases depth with
    | zero => simp [readItems] at hitems
    | succ depth => cases depth <;> simp [readItems, readValue] at hitems

theorem readValue_of_members {depth : Nat} {row after : List Token}
    {members : List (List Char × Json)}
    (hmembers : readMembers depth row = some (members, after)) :
    readValue (depth + 1) (.mark '\x7b' :: row) = some (.object members, after) := by
  rw [readValue]
  · rw [hmembers, Option.map_some]
  · rintro rest rfl
    simp [readMembers] at hmembers

theorem reads_of_succ {json : Json}
    (hread : ∀ depth rest, 2 * json.tokens.length ≤ depth + 2 →
      readValue (depth + 1) (json.tokens ++ rest) = some (json, rest)) : json.Reads := by
  intro depth rest hdepth
  have hpos := json.tokens_length_pos
  obtain ⟨depth, rfl⟩ : ∃ n, depth = n + 1 := ⟨depth - 1, by omega⟩
  exact hread depth rest hdepth

theorem reads (json : Json) : json.Reads := by
  induction json using inductionOn with
  | null | bool value | number value | string body => exact reads_of_succ fun _ _ _ => rfl
  | array items ih =>
      refine reads_of_succ fun depth rest hdepth => ?_
      cases items with
      | nil => rfl
      | cons item items =>
          simp only [tokens, List.length_append, List.length_cons] at hdepth
          rw [tokens, List.append_assoc]
          exact readValue_of_items (readItems_tokens (by simp) ih rest (by omega))
  | object members ih =>
      refine reads_of_succ fun depth rest hdepth => ?_
      cases members with
      | nil => rfl
      | cons member members =>
          simp only [tokens, List.length_append, List.length_cons] at hdepth
          rw [tokens, List.append_assoc]
          exact readValue_of_members (readMembers_tokens (by simp) ih rest (by omega))

/-- A text that is cut into the tokens of a document is read as that document. -/
theorem read?_of_spells {json : Json} {text : List Char} (htext : Spells text json.tokens) :
    read? (String.ofList text) = some json := by
  have hread := json.reads (2 * json.tokens.length + 1) [] (by omega)
  rw [List.append_nil] at hread
  simp [read?, htext.scan_eq, hread]

theorem Textual.read?_text {json : Json} (hjson : json.Textual) : read? json.text = some json :=
  read?_of_spells hjson.spells_compact

theorem Textual.read?_prettyText {json : Json} (hjson : json.Textual) :
    read? json.prettyText = some json :=
  read?_of_spells (hjson.spells_pretty 0)

end QueryPlan.Json
