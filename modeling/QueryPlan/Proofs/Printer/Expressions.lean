import QueryPlan.Proofs.Printer.Reading

/-!
# Expressions are read back

An operand is either enclosed or needs no parentheses, and in both cases its end
shows.  The induction on the plan has one lemma for each kind of expression.
-/

namespace QueryPlan

open Token

/-! ## Heads of operands -/

theorem StartsOperand.append {tokens : List Token} (htokens : StartsOperand tokens)
    (others : List Token) : StartsOperand (tokens ++ others) := by
  obtain ⟨token, hhead, htoken⟩ := htokens
  exact ⟨token, by simp [hhead], htoken⟩

theorem startsOperand_of_isWord {letters : List Char}
    (hletters : Literal.isWord letters = true) : StartsOperand [.word letters] := by
  refine ⟨_, rfl, by simp, ?_⟩
  intro heq
  rw [Token.word.inj heq] at hletters
  exact absurd hletters (by decide)

namespace Label

variable {label : Label}

/-- Only constants begin with the word of a literal. -/
theorem exists_head?_openingTokens (hnamed : label.Named)
    (hscalar : label.category = .scalar) (hcompound : label.isCompound = false)
    (hconstant : label.isConstant = false) :
    ∃ letters, label.openingTokens.head? = some (.word letters) ∧
      Literal.isWord letters = false ∧ letters ≠ "NOT".toList := by
  have hnot : "NOT" ∈ Text.reserved := by decide
  cases label with
  | table name schema aliasName => cases hscalar
  | join form => cases form <;> cases hscalar
  | joinOn form => cases form <;> cases hscalar
  | column qualifier name type =>
      exact ⟨_, rfl, isWord_qualified hnamed.2 hnamed.1, toList_qualified_ne hnamed.1 hnot⟩
  | constant value type => cases hconstant
  | parameter name type => exact ⟨_, rfl, Reader.isWord_parameter _, by simp⟩
  | binary op => cases hcompound
  | unary op => cases hcompound
  | call signature type =>
      exact ⟨_, rfl, isWord_qualified hnamed.2 hnamed.1, toList_qualified_ne hnamed.1 hnot⟩

theorem startsOperand_openingTokens (hnamed : label.Named)
    (hscalar : label.category = .scalar) (hcompound : label.isCompound = false) :
    StartsOperand label.openingTokens := by
  cases hconstant : label.isConstant with
  | false =>
      obtain ⟨letters, hhead, -, hnot⟩ :=
        exists_head?_openingTokens hnamed hscalar hcompound hconstant
      exact ⟨_, hhead, by simp, by simpa [ofString] using hnot⟩
  | true =>
      cases label with
      | constant value type =>
          rcases value.exists_tokens with ⟨s, rfl⟩ | ⟨signed, letters, hspelling, htokens⟩
          · exact ⟨_, rfl, by simp, by simp [ofString]⟩
          · cases signed with
            | true =>
                have hnegative := hspelling.negative rfl
                simp [isCompound, hnegative] at hcompound
            | false =>
                rw [openingTokens, htokens]
                exact startsOperand_of_isWord hspelling.isWord
      | _ => cases hconstant

theorem slotCategory_of_scalar (hscalar : label.category = .scalar) (place : Nat) :
    label.slotCategory place = .scalar := by
  cases label with
  | join form => cases form <;> cases hscalar
  | joinOn form => cases form <;> cases hscalar
  | _ => rfl

end Label

/-! ## Expressions -/

variable [ForeignTypes]

namespace Node

/-- The plan is read as an expression, and as an operand where it stands without
parentheses. -/
structure Readable (node : Node) : Prop where
  expression : ReadsExpression node.tokens node.sketch
  operand : node.label.isCompound = false → ReadsOperand node.tokens node.sketch

variable {node child : Node}

theorem readable_of_operand (hoperand : ReadsOperand node.tokens node.sketch)
    (hstarts : StartsOperand node.tokens) : node.Readable :=
  ⟨hoperand.readsExpression hstarts, fun _ => hoperand⟩

theorem readable_of_compound (hexpression : ReadsExpression node.tokens node.sketch)
    (hcompound : node.label.isCompound = true) : node.Readable :=
  ⟨hexpression, fun hsimple => absurd hcompound (by simp [hsimple])⟩

theorem startsOperand_tokens (hnamed : node.Named) (hscalar : node.category = .scalar)
    (hcompound : node.label.isCompound = false) : StartsOperand node.tokens := by
  have hlabel := hnamed.label
  rw [tokens_eq, List.append_assoc]
  exact (Label.startsOperand_openingTokens hlabel hscalar hcompound).append _

theorem Readable.operandTokens {parent : Label} (hchild : child.Readable)
    (hencloses : child.label.isCompound = true → parent.encloses child.label = true) :
    ReadsOperand (parent.operandTokens child.label child.tokens) child.sketch := by
  unfold Label.operandTokens
  split
  · exact readsOperand_parentheses hchild.expression
  · apply hchild.operand
    by_contra hcompound
    simp_all

theorem startsOperand_operandTokens {parent : Label} (hnamed : child.Named)
    (hscalar : child.category = .scalar)
    (hencloses : child.label.isCompound = true → parent.encloses child.label = true) :
    StartsOperand (parent.operandTokens child.label child.tokens) := by
  unfold Label.operandTokens
  split
  · exact ⟨.opening, rfl, by simp, by simp [ofString]⟩
  · apply startsOperand_tokens hnamed hscalar
    by_contra hcompound
    simp_all

theorem isWord_operandTokens (hnamed : child.Named) (hscalar : child.category = .scalar) :
    ∃ token, ((Label.unary .negate).operandTokens child.label child.tokens).head? =
        some token ∧
      ∀ letters, token = .word letters → Literal.isWord letters = false := by
  unfold Label.operandTokens
  split
  · exact ⟨.opening, rfl, by simp⟩
  · rename_i hencloses
    simp only [Label.encloses, Bool.or_eq_true, Bool.and_eq_true, not_or, not_and,
      Bool.not_eq_true] at hencloses
    obtain ⟨letters, hhead, hletters, -⟩ := Label.exists_head?_openingTokens
      hnamed.label hscalar hencloses.1 (hencloses.2 rfl)
    refine ⟨.word letters, ?_, ?_⟩
    · rw [tokens_eq, List.append_assoc]
      simp [hhead]
    · rintro others heq
      rwa [← Token.word.inj heq]

theorem readable_constant {value : Literal} {type : DataType}
    (hlabel : node.label = .constant value type) (hchildren : node.children = []) :
    node.Readable := by
  have htokens : node.tokens = value.tokens := by
    rw [tokens_eq, hlabel, hchildren]
    simp [Label.openingTokens, Label.closingTokens]
  have hsketch : node.sketch = Reader.constantOf value.text.toList := by
    rw [sketch_eq, hlabel, hchildren]
    simp [Label.sketch, Reader.constantOf]
  rcases value.exists_tokens with ⟨s, rfl⟩ | ⟨signed, letters, hspelling, hspelt⟩
  · have hread := readsOperand_text s.toList
    refine readable_of_operand ?_ ?_
    · rw [htokens, hsketch]
      simpa [Literal.tokens, Literal.text, Text.quoted, Token.chars] using hread
    · rw [htokens]
      exact ⟨_, rfl, by simp, by simp [ofString]⟩
  · rw [hspelling.toList_text] at hsketch
    rw [hspelt] at htokens
    cases signed with
    | true =>
        refine readable_of_compound ?_ ?_
        · rw [htokens, hsketch]
          exact readsExpression_signed hspelling.isWord
        · rw [hlabel]
          exact hspelling.negative rfl
    | false =>
        have hread := readsOperand_word letters
        rw [Reader.ofWord_of_isWord hspelling.isWord] at hread
        refine readable_of_operand ?_ ?_
        · rw [htokens, hsketch]
          exact hread
        · rw [htokens]
          exact startsOperand_of_isWord hspelling.isWord

theorem readable_binary {op : BinaryOperator} {left right : Node}
    (hlabel : node.label = .binary op) (hchildren : node.children = [left, right])
    (hnamed : left.Named) (hscalar : left.category = .scalar)
    (hleft : left.Readable) (hright : right.Readable) : node.Readable := by
  refine readable_of_compound ?_ (by rw [hlabel]; rfl)
  have hencloses : ∀ label : Label, label.isCompound = true →
      (Label.binary op).encloses label = true := fun _ hcompound => hcompound
  have hread := readsExpression_binary op (hleft.operandTokens (hencloses _))
    (startsOperand_operandTokens hnamed hscalar (hencloses _))
    (hright.operandTokens (hencloses _))
  rw [tokens_eq, sketch_eq, hlabel, hchildren]
  simpa [Label.openingTokens, Label.separatorTokens, Label.closingTokens, Label.sketch,
    Label.bare] using hread

theorem readable_unary {op : UnaryOperator} (hlabel : node.label = .unary op)
    (hchildren : node.children = [child]) (hnamed : child.Named)
    (hscalar : child.category = .scalar) (hchild : child.Readable) : node.Readable := by
  refine readable_of_compound ?_ (by rw [hlabel]; rfl)
  have hencloses : child.label.isCompound = true →
      (Label.unary op).encloses child.label = true := by
    intro hcompound
    simp [Label.encloses, hcompound]
  have hoperand := hchild.operandTokens hencloses
  have hstarts := startsOperand_operandTokens hnamed hscalar hencloses
  have hsketch : node.sketch = outline (.unary op) [child.sketch] := by
    rw [sketch_eq, hlabel, hchildren]
    rfl
  rw [tokens_eq, hsketch, hlabel, hchildren]
  cases op with
  | not =>
      simpa [Label.openingTokens, Label.closingTokens] using readsExpression_not hoperand
  | negate =>
      simpa [Label.openingTokens, Label.closingTokens] using
        readsExpression_negate hoperand (isWord_operandTokens hnamed hscalar)
  | isNull =>
      simpa [Label.openingTokens] using readsExpression_trailing rfl hoperand hstarts
  | isNotNull =>
      simpa [Label.openingTokens] using readsExpression_trailing rfl hoperand hstarts

theorem readsOperand_of_call {signature : Signature} {type : DataType}
    (hlabel : node.label = .call signature type) (hnamed : node.label.Named)
    (hchildren : ∀ child ∈ node.children, child.Readable) :
    ReadsOperand node.tokens node.sketch := by
  rw [hlabel] at hnamed
  have hrows : List.Forall₂ ReadsExpression (node.children.map tokens)
      (node.children.map sketch) := by
    rw [List.forall₂_map_left_iff, List.forall₂_map_right_iff, List.forall₂_same]
    exact fun child hchild => (hchildren child hchild).expression
  have htokens : node.tokens = .ofString (Label.qualified signature.declaring signature.name)
      :: .opening :: ([comma, blank].intercalate (node.children.map tokens) ++ [.closing]) := by
    have hqualified : signature.qualifiedName =
        Label.qualified signature.declaring signature.name := rfl
    rw [tokens_eq, hlabel]
    simp [Label.openingTokens, Label.separatorTokens, Label.closingTokens,
      Label.operandTokens, Label.encloses, hqualified]
  have hsketch : node.sketch = outline (Reader.callLabel
      (Label.qualified signature.declaring signature.name).toList)
        (node.children.map sketch) := by
    rw [sketch_eq, hlabel, Reader.callLabel, Reader.unqualify_qualified hnamed.2 hnamed.1]
    rfl
  rw [htokens, hsketch]
  exact readsOperand_call _ hrows

/-- Every expression with plain names is read back. -/
theorem readable (hwhole : node.Whole) (hnamed : node.Named)
    (hscalar : node.category = .scalar) : node.Readable := by
  induction node using Node.inductionOn with
  | step node ih =>
      obtain ⟨hwell, hparts⟩ := whole_iff.mp hwhole
      have hself := hnamed.label
      have hscalars : ∀ child ∈ node.children, child.category = .scalar := by
        intro child hchild
        obtain ⟨place, hplace⟩ := List.mem_iff_getElem?.mp hchild
        rw [hwell.categories place child hplace]
        exact Label.slotCategory_of_scalar hscalar place
      have hreadable : ∀ child ∈ node.children, child.Readable := fun child hchild =>
        ih child hchild (hparts child hchild) (hnamed.child hchild) (hscalars child hchild)
      have hcount := hwell.arity
      have hstarts := startsOperand_tokens hnamed hscalar
      cases hlabel : node.label with
      | table name schema aliasName =>
          rw [category, hlabel] at hscalar
          cases hscalar
      | join form =>
          rw [category, hlabel] at hscalar
          cases form <;> cases hscalar
      | joinOn form =>
          rw [category, hlabel] at hscalar
          cases form <;> cases hscalar
      | column qualifier name type =>
          rw [hlabel] at hself hcount
          refine readable_of_operand ?_ (hstarts (by rw [hlabel]; rfl))
          have hread := readsOperand_word (Label.qualified qualifier name).toList
          rw [Reader.ofWord_qualified hself.2 hself.1] at hread
          rw [tokens_eq, sketch_eq, hlabel, List.length_eq_zero_iff.mp hcount]
          simpa [Label.openingTokens, Label.closingTokens, Label.sketch, Label.bare,
            ofString] using hread
      | constant value type =>
          rw [hlabel] at hcount
          exact readable_constant hlabel (List.length_eq_zero_iff.mp hcount)
      | parameter name type =>
          rw [hlabel] at hcount
          refine readable_of_operand ?_ (hstarts (by rw [hlabel]; rfl))
          have hread := readsOperand_word ('@' :: name.toList)
          rw [Reader.ofWord_parameter] at hread
          rw [tokens_eq, sketch_eq, hlabel, List.length_eq_zero_iff.mp hcount]
          simpa [Label.openingTokens, Label.closingTokens, Label.sketch, Label.bare]
            using hread
      | binary op =>
          rw [hlabel] at hcount
          obtain ⟨left, right, hchildren⟩ := List.length_eq_two.mp hcount
          have hleft : left ∈ node.children := by simp [hchildren]
          have hright : right ∈ node.children := by simp [hchildren]
          exact readable_binary hlabel hchildren (hnamed.child hleft)
            (hscalars left hleft) (hreadable left hleft) (hreadable right hright)
      | unary op =>
          rw [hlabel] at hcount
          obtain ⟨child, hchildren⟩ := List.length_eq_one_iff.mp hcount
          have hchild : child ∈ node.children := by simp [hchildren]
          exact readable_unary hlabel hchildren (hnamed.child hchild)
            (hscalars child hchild) (hreadable child hchild)
      | call signature type =>
          exact readable_of_operand (readsOperand_of_call hlabel hself hreadable)
            (hstarts (by rw [hlabel]; rfl))

end Node

end QueryPlan
