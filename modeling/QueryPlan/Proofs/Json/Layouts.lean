import QueryPlan.Json.Printer
import QueryPlan.Proofs.Json.Escaping

/-!
# The tokens of JSON documents

Both layouts of a document are cut into the same row of tokens, so that the layout has no
influence on what is read.  A row of tokens is told apart from what follows it by its last
character.  Numbers have no such character, and documents with numbers are left out here.
-/

namespace QueryPlan.Json

/-- Documents without numbers whose strings are written by `escape`. -/
inductive Textual : Json → Prop
  | null : Textual .null
  | bool (value : Bool) : Textual (.bool value)
  | string (text : List Char) : Textual (.string (escape text))
  | array {items : List Json} (hitems : ∀ item ∈ items, Textual item) : Textual (.array items)
  | object {members : List (List Char × Json)}
      (hnames : ∀ member ∈ members, ∃ text, member.1 = escape text)
      (hvalues : ∀ member ∈ members, Textual member.2) : Textual (.object members)

mutual

/-- The tokens that a document is written with. -/
def tokens (json : Json) : List Token :=
  match json with
  | null => [.null]
  | bool value => [.bool value]
  | number value => [.number value]
  | string body => [.string body]
  | array items => .mark '[' :: [.mark ','].intercalate (itemTokens items) ++ [.mark ']']
  | object members =>
      .mark '\x7b' :: [.mark ','].intercalate (memberTokens members) ++ [.mark '\x7d']

def itemTokens : List Json → List (List Token)
  | [] => []
  | item :: rest => tokens item :: itemTokens rest

def memberTokens : List (List Char × Json) → List (List Token)
  | [] => []
  | (name, value) :: rest => (.string name :: .mark ':' :: tokens value) :: memberTokens rest

end

theorem itemTokens_eq_map (items : List Json) : itemTokens items = items.map tokens := by
  induction items with
  | nil => rfl
  | cons item rest ih => rw [itemTokens, ih, List.map_cons]

theorem memberTokens_eq_map (members : List (List Char × Json)) :
    memberTokens members =
      members.map fun member => .string member.1 :: .mark ':' :: member.2.tokens := by
  induction members with
  | nil => rfl
  | cons member rest ih => rw [memberTokens, ih, List.map_cons]

/-! ## Rows with commas between them -/

/-- Rows written with a comma after each but the last. -/
theorem eq_intercalate_of_cons {α : Type} {row : α → List Char} {rows : List α → List Char}
    (hnil : rows [] = []) (hone : ∀ item, rows [item] = row item)
    (hmore : ∀ item next rest,
      rows (item :: next :: rest) = row item ++ ',' :: rows (next :: rest))
    (items : List α) : rows items = [','].intercalate (items.map row) := by
  induction items with
  | nil => simpa using hnil
  | cons item rest ih =>
      cases rest with
      | nil => simpa using hone item
      | cons next rest =>
          rw [hmore, ih]
          simp only [List.map_cons, List.intercalate_cons_cons, List.append_assoc,
            List.singleton_append]

theorem compactItems_eq (items : List Json) :
    compactItems items = [','].intercalate (items.map compact) := by
  refine eq_intercalate_of_cons ?_ ?_ ?_ items <;> intros <;> simp only [compactItems]

theorem compactMembers_eq (members : List (List Char × Json)) :
    compactMembers members = [','].intercalate
      (members.map fun member => '"' :: member.1 ++ '"' :: ':' :: member.2.compact) := by
  refine eq_intercalate_of_cons ?_ ?_ ?_ members <;> intros <;> simp only [compactMembers]

theorem prettyItems_eq (level : Nat) (items : List Json) :
    prettyItems level items =
      [','].intercalate (items.map fun item => newline level ++ item.pretty level) := by
  refine eq_intercalate_of_cons ?_ ?_ ?_ items <;> intros <;> simp only [prettyItems]

theorem prettyMembers_eq (level : Nat) (members : List (List Char × Json)) :
    prettyMembers level members = [','].intercalate (members.map fun member =>
      newline level ++ '"' :: member.1 ++ '"' :: ':' :: ' ' :: member.2.pretty level) := by
  refine eq_intercalate_of_cons ?_ ?_ ?_ members <;> intros <;> simp only [prettyMembers]

/-! ## Cutting -/

namespace Token

/-- The text is cut into the tokens, whatever follows it. -/
def Spells (text : List Char) (tokens : List Token) : Prop :=
  ∀ rest, scan (text ++ rest) = (scan rest).map (tokens ++ ·)

variable {text other : List Char} {tokens more : List Token}

theorem Spells.scan_eq (htext : Spells text tokens) : scan text = some tokens := by
  have hscan := htext []
  rw [List.append_nil] at hscan
  simp [hscan, scan]

theorem spells_nil : Spells [] [] := fun rest => by simp

theorem Spells.append (htext : Spells text tokens) (hother : Spells other more) :
    Spells (text ++ other) (tokens ++ more) := by
  intro rest
  rw [List.append_assoc, htext, hother, Option.map_map]
  congr 1
  funext row
  exact (List.append_assoc tokens more row).symm

theorem spells_blank {c : Char} (hblank : isBlank c) : Spells [c] [] := fun rest => by
  rw [List.singleton_append, scan, if_pos hblank]
  simp

theorem spells_newline (level : Nat) : Spells (newline level) [] := by
  have hindent : ∀ width, Spells (List.replicate width ' ') [] := by
    intro width
    induction width with
    | zero => exact spells_nil
    | succ width ih => exact (spells_blank rfl).append ih
  exact (spells_blank rfl).append (hindent _)

/-- A token takes its characters off the text. -/
theorem scan_token {c : Char} {rest after : List Char} {token : Token}
    (hblank : isBlank c = false) (htoken : scanToken c rest = some (token, after))
    (hafter : after.length ≤ rest.length) : scan (c :: rest) = (scan after).map (token :: ·) := by
  rw [scan]
  simp [hblank, htoken, hafter]

theorem spells_mark {c : Char} (hblank : isBlank c = false) (hmark : isMark c) :
    Spells [c] [.mark c] := fun rest =>
  scan_token hblank (by rw [scanToken, if_pos hmark]; rfl) (by simp)

theorem spells_null : Spells ['n', 'u', 'l', 'l'] [.null] := fun _ =>
  scan_token rfl rfl (by simp; omega)

theorem spells_bool (value : Bool) : Spells (Json.bool value).word [.bool value] := by
  cases value <;> exact fun _ => scan_token rfl rfl (by simp; omega)

theorem spells_string (text : List Char) :
    Spells (Json.string (escape text)).word [.string (escape text)] := by
  intro rest
  have htoken :
      scanToken '"' (escape text ++ '"' :: rest) = some (.string (escape text), rest) := by
    rw [scanToken, if_neg (by decide), if_pos rfl, scanString_escape, Option.map_some]
  have hscan := scan_token rfl htoken (by simp; omega)
  simpa [word] using hscan

/-- Rows with commas between them spell what the rows spell with commas between. -/
theorem Spells.separated {α : Type} {row : α → List Char} {spelled : α → List Token}
    {items : List α} (hitems : ∀ item ∈ items, Spells (row item) (spelled item)) :
    Spells ([','].intercalate (items.map row))
      ([mark ','].intercalate (items.map spelled)) := by
  induction items with
  | nil => exact spells_nil
  | cons item rest ih =>
      obtain ⟨hitem, hrest⟩ := List.forall_mem_cons.mp hitems
      cases rest with
      | nil => simpa using hitem
      | cons next rest =>
          have hcomma : Spells [','] [mark ','] := spells_mark rfl rfl
          simpa only [List.map_cons, List.intercalate_cons_cons] using
            (hitem.append hcomma).append (ih hrest)

/-- Text between brackets or braces. -/
theorem Spells.enclosed {opening closing : Char} (htext : Spells text tokens)
    (hopening : Spells [opening] [.mark opening]) (hclosing : Spells [closing] [.mark closing]) :
    Spells (opening :: text ++ [closing]) (.mark opening :: tokens ++ [.mark closing]) :=
  (hopening.append htext).append hclosing

end Token

open Token

/-- A member, with or without a blank after the colon. -/
theorem spells_member {name blanks text : List Char} {tokens : List Token}
    (hname : ∃ text, name = escape text) (hblanks : Spells blanks [])
    (htext : Spells text tokens) :
    Spells ('"' :: name ++ '"' :: ':' :: (blanks ++ text))
      (.string name :: .mark ':' :: tokens) := by
  obtain ⟨name, rfl⟩ := hname
  have hcolon : Spells [':'] [.mark ':'] := spells_mark rfl rfl
  simpa [word] using (spells_string name).append (hcolon.append (hblanks.append htext))

theorem Textual.spells_compact {json : Json} (hjson : json.Textual) :
    Spells json.compact json.tokens := by
  induction hjson with
  | null => exact spells_null
  | bool value => exact spells_bool value
  | string text => exact spells_string text
  | array hitems ih =>
      rw [compact, compactItems_eq, tokens, itemTokens_eq_map]
      exact (Spells.separated ih).enclosed (spells_mark rfl rfl) (spells_mark rfl rfl)
  | object hnames hvalues ih =>
      rw [compact, compactMembers_eq, tokens, memberTokens_eq_map]
      exact (Spells.separated fun member hmember =>
        spells_member (hnames member hmember) spells_nil (ih member hmember)).enclosed
          (spells_mark rfl rfl) (spells_mark rfl rfl)

theorem Textual.spells_pretty {json : Json} (hjson : json.Textual) (level : Nat) :
    Spells (json.pretty level) json.tokens := by
  induction hjson generalizing level with
  | null => exact spells_null
  | bool value => exact spells_bool value
  | string text => exact spells_string text
  | @array items hitems ih =>
      rw [tokens, itemTokens_eq_map]
      cases items with
      | nil => exact spells_nil.enclosed (spells_mark rfl rfl) (spells_mark rfl rfl)
      | cons item rest =>
          have hrow := Spells.separated fun item hitem =>
            (spells_newline (level + 1)).append (ih item hitem (level + 1))
          have htext := hrow.append (spells_newline level)
          rw [pretty, prettyItems_eq]
          simpa using htext.enclosed (spells_mark rfl rfl) (spells_mark rfl rfl)
  | @object members hnames hvalues ih =>
      rw [tokens, memberTokens_eq_map]
      cases members with
      | nil => exact spells_nil.enclosed (spells_mark rfl rfl) (spells_mark rfl rfl)
      | cons member rest =>
          have hrow := Spells.separated fun member hmember =>
            (spells_newline (level + 1)).append
              (spells_member (hnames member hmember) (spells_blank (c := ' ') rfl)
                (ih member hmember (level + 1)))
          have htext := hrow.append (spells_newline level)
          rw [pretty, prettyMembers_eq]
          simpa using htext.enclosed (spells_mark rfl rfl) (spells_mark rfl rfl)

end QueryPlan.Json
