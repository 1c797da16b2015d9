import QueryPlan.Proofs.Printer.NodeTokens

/-!
# Plans with plain names

A plain name is made of letters, digits and underscores, does not begin with a
digit and is none of the words that printing uses itself.  If all names of a plan
are plain, then its tokens are separated.
-/

namespace QueryPlan

open Token

namespace Text

/-- The words that printing uses itself. -/
def reserved : List String :=
  Literal.names ++ ["NOT", "AND", "OR", "LIKE", "IS", "ON", "AS", "CROSS", "OUTER",
    "INNER", "LEFT"]

structure IsName (name : String) : Prop where
  lead : ∃ c, name.toList.head? = some c ∧ c.isDigit = false
  chars : ∀ c ∈ name.toList, c.isAlphanum = true ∨ c = '_'
  free : name ∉ reserved

theorem isPlain_of_isAlphanum {c : Char} (hc : c.isAlphanum = true ∨ c = '_') :
    isPlain c = true := by
  simp only [isPlain, Bool.and_eq_true, bne_iff_ne]
  refine ⟨⟨⟨⟨?_, ?_⟩, ?_⟩, ?_⟩, ?_⟩ <;> rintro rfl <;> revert hc <;> decide

theorem IsName.not_mem {name : String} (hname : IsName name) {c : Char}
    (hc : c.isAlphanum = false) (hline : c ≠ '_') : c ∉ name.toList := by
  intro hmem
  rcases hname.chars c hmem with hc' | hc'
  · simp [hc] at hc'
  · exact hline hc'

theorem IsName.valid {name : String} (hname : IsName name) :
    (Token.ofString name).Valid := by
  obtain ⟨c, hlead, -⟩ := hname.lead
  refine ⟨?_, ?_, ?_⟩
  · intro hnil
    simp [hnil] at hlead
  · exact List.all_eq_true.mpr fun c hc => isPlain_of_isAlphanum (hname.chars c hc)
  · intro hminus
    exact hname.not_mem (by decide) (by decide) (List.mem_of_mem_head? hminus)

end Text

namespace Label

theorem toList_qualified (qualifier : Option String) (name : String) :
    (qualified qualifier name).toList =
      match qualifier with
      | some qualifier => qualifier.toList ++ '.' :: name.toList
      | none => name.toList := by
  cases qualifier <;> simp [qualified]

theorem valid_qualified {qualifier : Option String} {name : String}
    (hqualifier : ∀ q ∈ qualifier, Text.IsName q) (hname : Text.IsName name) :
    (Token.ofString (qualified qualifier name)).Valid := by
  cases qualifier with
  | none => exact hname.valid
  | some qualifier =>
      obtain ⟨hne, hplain, hminus⟩ := (hqualifier qualifier rfl).valid
      have hplain' := hname.valid.2.1
      rw [ofString, toList_qualified]
      refine ⟨by simp, ?_, ?_⟩
      · rw [List.all_append, List.all_cons, hplain, hplain']
        rfl
      · rwa [List.head?_append_of_ne_nil _ hne]

theorem exists_head?_qualified {qualifier : Option String} {name : String}
    (hqualifier : ∀ q ∈ qualifier, Text.IsName q) (hname : Text.IsName name) :
    ∃ c, (qualified qualifier name).toList.head? = some c ∧ c.isDigit = false ∧ c ≠ '@' := by
  have hfirst : ∀ first : String, Text.IsName first →
      ∃ c, first.toList.head? = some c ∧ c.isDigit = false ∧ c ≠ '@' := by
    intro first hfirst
    obtain ⟨c, hlead, hc⟩ := hfirst.lead
    refine ⟨c, hlead, hc, ?_⟩
    rintro rfl
    exact hfirst.not_mem (by decide) (by decide) (List.mem_of_mem_head? hlead)
  rw [toList_qualified]
  cases qualifier with
  | none => exact hfirst name hname
  | some qualifier =>
      obtain ⟨c, hhead, hc⟩ := hfirst qualifier (hqualifier qualifier rfl)
      exact ⟨c, by simp [hhead], hc⟩

theorem toList_qualified_ne {qualifier : Option String} {name keyword : String}
    (hname : Text.IsName name) (hkeyword : keyword ∈ Text.reserved) :
    (qualified qualifier name).toList ≠ keyword.toList := by
  rw [toList_qualified]
  cases qualifier with
  | none =>
      intro heq
      exact hname.free (String.toList_inj.mp heq ▸ hkeyword)
  | some qualifier =>
      have hpoint : '.' ∉ keyword.toList := by
        revert keyword
        decide
      intro heq
      rw [← heq] at hpoint
      simp at hpoint

theorem isWord_qualified {qualifier : Option String} {name : String}
    (hqualifier : ∀ q ∈ qualifier, Text.IsName q) (hname : Text.IsName name) :
    Literal.isWord (qualified qualifier name).toList = false := by
  obtain ⟨c, hhead, hc, -⟩ := exists_head?_qualified hqualifier hname
  have hnames : Literal.names.any (·.toList = (qualified qualifier name).toList) = false := by
    rw [List.any_eq_false]
    intro keyword hkeyword
    have hne : (Label.qualified qualifier name).toList ≠ keyword.toList := toList_qualified_ne hname
      (List.mem_append_left _ hkeyword)
    simpa using hne.symm
  simp [Literal.isWord, hhead, hc, hnames]

/-- The names of a node itself are plain. -/
def Named : Label → Prop
  | table name schema aliasName => Text.IsName name ∧
      (∀ s ∈ schema, Text.IsName s) ∧ ∀ a ∈ aliasName, Text.IsName a
  | column qualifier name _ => Text.IsName name ∧ ∀ q ∈ qualifier, Text.IsName q
  | parameter name _ => Text.IsName name
  | call signature _ => Text.IsName signature.name ∧
      ∀ d ∈ signature.declaring, Text.IsName d
  | _ => True

end Label

/-! ## Separated rows -/

theorem Token.separated_nil : Separated [] :=
  ⟨by simp, .nil⟩

theorem Token.separated_singleton {token : Token} (htoken : token.Valid) :
    Separated [token] :=
  ⟨by simpa using htoken, .singleton token⟩

theorem Literal.tokens_of_spelling {value : Literal} {signed : Bool} {word : List Char}
    (hspelling : Spelling value signed word) (hvalue : ∀ s, value ≠ .string s) :
    value.tokens = (if signed then [.minus] else []) ++ [.word word] := by
  have htext := hspelling.toList_text
  obtain ⟨c, hhead, hc⟩ := head?_of_isWord hspelling.isWord
  obtain ⟨rest, rfl⟩ : ∃ rest, word = c :: rest := by
    cases word with
    | nil => simp at hhead
    | cons first rest => exact ⟨rest, by simp_all⟩
  cases value with
  | string s => exact absurd rfl (hvalue s)
  | _ =>
      simp only [tokens, htext]
      cases signed
      · split
        · simp_all
        · rfl
      · rfl

/-- A literal is a quoted text or a word behind an optional sign. -/
theorem Literal.exists_tokens (value : Literal) :
    (∃ s, value = .string s) ∨ ∃ signed word, Spelling value signed word ∧
      value.tokens = (if signed then [.minus] else []) ++ [.word word] := by
  by_cases hvalue : ∃ s, value = .string s
  · exact .inl hvalue
  · have hvalue : ∀ s, value ≠ .string s := fun s heq => hvalue ⟨s, heq⟩
    obtain ⟨signed, word, hspelling⟩ := exists_spelling hvalue
    exact .inr ⟨signed, word, hspelling, tokens_of_spelling hspelling hvalue⟩

theorem Literal.separated_tokens (value : Literal) : Separated value.tokens := by
  rcases value.exists_tokens with ⟨s, rfl⟩ | ⟨signed, word, hspelling, htokens⟩
  · exact separated_singleton trivial
  · obtain ⟨c, hhead, hc⟩ := head?_of_isWord hspelling.isWord
    have hword : (Token.word word).Valid := by
      refine ⟨?_, List.all_eq_true.mpr hspelling.plain, ?_⟩
      · rintro rfl
        simp at hhead
      · simpa [hhead] using hc
    rw [htokens]
    cases signed
    · exact separated_singleton hword
    · have hminus : Separated [Token.minus] := separated_singleton trivial
      apply hminus.append_of_loose (separated_singleton hword)
      simp [isLoose]

namespace Label

variable {label : Label}

theorem separated_openingTokens (hnamed : label.Named) :
    Separated label.openingTokens := by
  cases label with
  | table name schema aliasName =>
      obtain ⟨hname, hschema, halias⟩ := hnamed
      have hopening := separated_singleton (valid_qualified hschema hname)
      cases aliasName with
      | none => exact hopening
      | some aliasName =>
          have has : Separated [.blank, .ofString "AS", .blank] :=
            ⟨by decide, by decide⟩
          refine hopening.append_of_gap ?_ (by simp [isGap])
          exact has.append_of_loose (separated_singleton (halias aliasName rfl).valid)
            (by simp [isLoose])
  | join form => cases form <;> exact ⟨by decide, by decide⟩
  | joinOn form => cases form <;> exact ⟨by decide, by decide⟩
  | column qualifier name type =>
      exact separated_singleton (valid_qualified hnamed.2 hnamed.1)
  | constant value type => exact value.separated_tokens
  | parameter name type =>
      have hplain : name.toList.all Text.isPlain = true := hnamed.valid.2.1
      refine separated_singleton ⟨by simp, ?_, by simp⟩
      rw [List.all_cons, hplain]
      rfl
  | binary op => exact separated_nil
  | unary op => cases op <;> exact ⟨by decide, by decide⟩
  | call signature type =>
      have hopening : Separated [Token.ofString signature.qualifiedName] := by
        have hvalid := valid_qualified hnamed.2 hnamed.1
        exact separated_singleton hvalid
      have hparenthesis : Separated [Token.opening] := separated_singleton trivial
      apply hopening.append_of_gap hparenthesis
      simp [isGap]

theorem separated_closingTokens : Separated label.closingTokens := by
  cases label with
  | unary op => cases op <;> exact ⟨by decide, by decide⟩
  | call signature type => exact separated_singleton trivial
  | _ => exact separated_nil

theorem closingTokens_gap : ∀ next ∈ label.closingTokens.head?, next.isGap = true := by
  cases label with
  | unary op => cases op <;> simp [closingTokens, isGap]
  | _ => simp [closingTokens, isGap]

theorem separated_separatorTokens : Separated label.separatorTokens := by
  have hon : Separated [.blank, .ofString "ON", .blank] := ⟨by decide, by decide⟩
  have hcomma : Separated [.comma, .blank] := ⟨by decide, by decide⟩
  cases label with
  | joinOn form => exact hon
  | binary op => cases op <;> exact ⟨by decide, by decide⟩
  | call signature type => exact hcomma
  | _ => exact separated_nil

theorem separatorTokens_gap :
    ∀ next ∈ label.separatorTokens.head?, next.isGap = true := by
  cases label <;> simp [separatorTokens, isGap]

theorem separatorTokens_loose :
    ∀ token ∈ label.separatorTokens.getLast?, token.isLoose = true := by
  cases label <;> simp [separatorTokens, isLoose]

/-- Nodes with children open with a token that anything may follow. -/
theorem openingTokens_loose (harity : label.arity ≠ 0) :
    ∀ token ∈ label.openingTokens.getLast?, token.isLoose = true := by
  cases label with
  | join form => cases form <;> simp [openingTokens, isLoose]
  | joinOn form => cases form <;> simp [openingTokens, isLoose]
  | binary op => simp [openingTokens]
  | unary op => cases op <;> simp [openingTokens, isLoose]
  | call signature type => simp [openingTokens, isLoose]
  | _ => exact absurd rfl harity

/-- Only a node with a single child has no separator. -/
theorem arity_le_one_of_separatorTokens_eq_nil (hseparator : label.separatorTokens = []) :
    label.arity ≤ 1 := by
  cases label <;> simp_all [separatorTokens, arity]

end Label

theorem Label.separated_operandTokens {parent child : Label} {tokens : List Token}
    (htokens : Separated tokens) : Separated (parent.operandTokens child tokens) := by
  unfold operandTokens
  split
  · have hopening : Separated [Token.opening] := separated_singleton trivial
    have hclosing : Separated [Token.closing] := separated_singleton trivial
    refine hopening.append_of_loose (htokens.append_of_gap hclosing ?_) ?_
    · simp [isGap]
    · simp [isLoose]
  · exact htokens

/-! ## Nodes -/

variable [ForeignTypes]

def Node.Named (node : Node) : Prop :=
  ∀ part ∈ node.preorder, part.label.Named

theorem Node.named_iff {node : Node} :
    node.Named ↔ node.label.Named ∧ ∀ child ∈ node.children, child.Named :=
  forall_mem_preorder_iff

theorem Node.Named.label {node : Node} (hnode : node.Named) : node.label.Named :=
  (named_iff.mp hnode).1

theorem Node.Named.child {node child : Node} (hnode : node.Named)
    (hchild : child ∈ node.children) : child.Named :=
  (named_iff.mp hnode).2 child hchild

theorem Node.separated_tokens {node : Node} (hwhole : node.Whole) (hnamed : node.Named) :
    Separated node.tokens := by
  induction node using Node.inductionOn with
  | step node ih =>
      obtain ⟨hwell, hchildren⟩ := whole_iff.mp hwhole
      have hopening := Label.separated_openingTokens hnamed.label
      have hclosing : Separated node.label.closingTokens := Label.separated_closingTokens
      have hrows : ∀ row ∈ node.children.map (fun child =>
          node.label.operandTokens child.label child.tokens), Separated row := by
        intro row hrow
        obtain ⟨child, hchild, rfl⟩ := List.mem_map.mp hrow
        exact Label.separated_operandTokens
          (ih child hchild (hchildren child hchild) (hnamed.child hchild))
      have hinner : Separated (node.label.separatorTokens.intercalate
          (node.children.map fun child =>
            node.label.operandTokens child.label child.tokens)) := by
        by_cases hseparator : node.label.separatorTokens = []
        · have hlength := Label.arity_le_one_of_separatorTokens_eq_nil hseparator
          rw [← hwell.arity] at hlength
          cases hnodes : node.children with
          | nil => exact separated_nil
          | cons child rest =>
              obtain rfl : rest = [] := by
                simpa [hnodes] using hlength
              simpa [hnodes] using hrows
        · exact Separated.intercalate Label.separated_separatorTokens
            Label.separatorTokens_gap Label.separatorTokens_loose hseparator hrows
      rw [tokens_eq]
      refine Separated.append_of_gap ?_ hclosing Label.closingTokens_gap
      cases hnodes : node.children with
      | nil => simpa [hnodes] using hopening
      | cons child rest =>
          rw [hnodes] at hinner
          refine hopening.append_of_loose hinner (Label.openingTokens_loose ?_)
          rw [← hwell.arity, hnodes]
          simp

end QueryPlan
