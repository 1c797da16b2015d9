import Mathlib.Data.List.TakeDrop
import Mathlib.Data.List.TakeWhile
import Mathlib.Order.Filter.AtTopBot.Basic
import QueryPlan.Proofs.Printer.Reader

/-!
# Plans are read back

The reader finds the sketch of every plan with plain names in the tokens of the
plan, whatever may follow them.  Each way of writing an operand or an expression
has its own lemma; the induction on the plan then only puts them together.
-/

namespace QueryPlan

open Token Filter

/-! ## Rows of tokens -/

/-- What may follow an expression. -/
def Ends (rest : List Token) : Prop :=
  rest = [] ∨ ∃ others, rest = .closing :: others ∨ rest = .comma :: others ∨
    rest = .blank :: .ofString "ON" :: others

/-- The tokens begin neither with a minus sign nor with a negation. -/
def StartsOperand (tokens : List Token) : Prop :=
  ∃ token, tokens.head? = some token ∧ token ≠ .minus ∧ token ≠ .ofString "NOT"

theorem eventually_of_succ {reads next : Nat → Prop}
    (hreads : ∀ᶠ fuel in atTop, reads fuel)
    (hnext : ∀ fuel, reads fuel → next (fuel + 1)) : ∀ᶠ fuel in atTop, next fuel := by
  obtain ⟨least, hleast⟩ := eventually_atTop.mp hreads
  refine eventually_atTop.mpr ⟨least + 1, ?_⟩
  intro fuel hfuel
  obtain ⟨fuel, rfl⟩ := Nat.exists_eq_add_one_of_ne_zero (by omega : fuel ≠ 0)
  exact hnext fuel (hleast fuel (by omega))

theorem Ends.head?_ne_opening {rest : List Token} (hrest : Ends rest) :
    rest.head? ≠ some .opening := by
  rcases hrest with rfl | ⟨others, rfl | rfl | rfl⟩ <;> simp

theorem Reader.operator?_token (op : BinaryOperator) :
    Reader.operator? op.token = some op := by
  cases op <;> decide

theorem BinaryOperator.token_ne_is (op : BinaryOperator) :
    op.token ≠ .ofString "IS" := by
  cases op <;> decide

theorem Reader.isWord_parameter (letters : List Char) :
    Literal.isWord ('@' :: letters) = false := by
  simp [Literal.isWord, Literal.names]

theorem Reader.unqualify_qualified {qualifier : Option String} {name : String}
    (hqualifier : ∀ q ∈ qualifier, Text.IsName q)
    (hname : Text.IsName name) :
    unqualify (Label.qualified qualifier name).toList = (qualifier, name) := by
  have hpoint : ∀ first : String, Text.IsName first →
      ∀ c ∈ first.toList, (c != '.') = true := by
    intro first hfirst c hc
    have hne : c ≠ '.' := by
      rintro rfl
      exact hfirst.not_mem (by decide) (by decide) hc
    simpa using hne
  rw [Label.toList_qualified, unqualify, List.span_eq_takeWhile_dropWhile]
  cases qualifier with
  | none =>
      have hall := hpoint name hname
      rw [List.takeWhile_eq_self_iff.mpr hall, List.dropWhile_eq_nil_iff.mpr hall]
      simp
  | some qualifier =>
      have hall := hpoint qualifier (hqualifier qualifier rfl)
      simp only [List.takeWhile_append_of_pos hall, List.dropWhile_append_of_pos hall]
      simp

/-- The tokens of the further arguments of a call. -/
def furtherTokens (rows : List (List Token)) : List Token :=
  rows.flatMap fun row => .comma :: .blank :: row

theorem intercalate_eq_furtherTokens (row : List Token) (rows : List (List Token)) :
    [comma, blank].intercalate (row :: rows) = row ++ furtherTokens rows := by
  induction rows generalizing row with
  | nil => simp [furtherTokens]
  | cons next rows ih =>
      rw [List.intercalate_cons_cons, ih]
      simp [furtherTokens]

theorem ends_furtherTokens (rows : List (List Token)) (rest : List Token) :
    Ends (furtherTokens rows ++ .closing :: rest) := by
  cases rows with
  | nil => exact .inr ⟨rest, .inl rfl⟩
  | cons next rows => exact .inr ⟨_, .inr (.inl rfl)⟩

/-! ## What is read -/

variable [ForeignTypes]

/-- With enough fuel an operand is read, whatever follows that is no opening
parenthesis. -/
def ReadsOperand (tokens : List Token) (node : Node) : Prop :=
  ∀ᶠ fuel in atTop, ∀ rest : List Token, rest.head? ≠ some .opening →
    Reader.operand fuel (tokens ++ rest) = some (node, rest)

def ReadsExpression (tokens : List Token) (node : Node) : Prop :=
  ∀ᶠ fuel in atTop, ∀ rest : List Token, Ends rest →
    Reader.expression (Reader.operand fuel) (tokens ++ rest) = some (node, rest)

theorem Ends.suffix_eq {rest : List Token} (hrest : Ends rest) (operand : Reader Node)
    (left : Node) :
    Reader.suffix operand left rest = some (left, rest) := by
  have hon : Reader.operator? (.ofString "ON") = none := by decide
  have his : Token.ofString "ON" ≠ .ofString "IS" := by decide
  rcases hrest with rfl | ⟨others, rfl | rfl | rfl⟩
  · rfl
  · rfl
  · rfl
  · simp [Reader.suffix, hon, his]

/-! ## Words -/

namespace Reader

variable {qualifier : Option String} {name : String}

theorem ofWord_of_isWord {letters : List Char} (hletters : Literal.isWord letters = true) :
    ofWord letters = constantOf letters :=
  if_pos hletters

theorem ofWord_qualified (hqualifier : ∀ q ∈ qualifier, Text.IsName q)
    (hname : Text.IsName name) :
    ofWord (Label.qualified qualifier name).toList =
      .outline (.column qualifier name .unknown) [] := by
  have hword := Label.isWord_qualified hqualifier hname
  obtain ⟨c, hhead, -, hc⟩ := Label.exists_head?_qualified hqualifier hname
  have hparts := unqualify_qualified hqualifier hname
  obtain ⟨rest, hletters⟩ := List.head?_eq_some_iff.mp hhead
  rw [hletters] at hword hparts ⊢
  unfold ofWord
  split
  · simp_all
  · split
    · simp_all
    · rw [hparts]

theorem ofWord_parameter (name : String) :
    ofWord ('@' :: name.toList) = .outline (.parameter name .unknown) [] := by
  simp [ofWord, isWord_parameter]

end Reader

/-! ## Operands -/

theorem readsOperand_word (letters : List Char) :
    ReadsOperand [.word letters] (Reader.ofWord letters) := by
  apply eventually_of_succ (Eventually.of_forall fun _ => trivial)
  intro fuel _ rest hrest
  cases rest with
  | nil => rfl
  | cons token rest => cases token <;> first | rfl | exact absurd rfl hrest

theorem readsOperand_text (letters : List Char) :
    ReadsOperand [.text letters] (Reader.constantOf (Token.text letters).chars) :=
  eventually_of_succ (Eventually.of_forall fun _ => trivial) fun _ _ _ _ => rfl

theorem readsOperand_parentheses {tokens : List Token} {node : Node}
    (htokens : ReadsExpression tokens node) :
    ReadsOperand (.opening :: (tokens ++ [.closing])) node := by
  apply eventually_of_succ htokens
  intro fuel hexpression rest _
  have hinner := hexpression (.closing :: rest) (.inr ⟨rest, .inl rfl⟩)
  simp [Reader.operand, hinner]

/-! ## Calls -/

theorem moreArguments_eq {argument : Reader Node} {rows : List (List Token)}
    {nodes : List Node}
    (hrows : List.Forall₂ (fun row node => ∀ rest, Ends rest →
      argument (row ++ rest) = some (node, rest)) rows nodes)
    {fuel : Nat} (hfuel : rows.length ≤ fuel) (rest : List Token) :
    Reader.moreArguments argument fuel (furtherTokens rows ++ .closing :: rest) =
      some (nodes, rest) := by
  induction hrows generalizing fuel with
  | nil => cases fuel <;> rfl
  | @cons row node rows nodes hrow hrest ih =>
      have hpositive : fuel ≠ 0 := by
        simp at hfuel
        omega
      obtain ⟨fuel, rfl⟩ := Nat.exists_eq_add_one_of_ne_zero hpositive
      have hmore := ih (by simpa using hfuel : rows.length ≤ fuel)
      have htokens : furtherTokens (row :: rows) ++ .closing :: rest =
          .comma :: .blank :: (row ++ (furtherTokens rows ++ .closing :: rest)) := by
        simp [furtherTokens]
      rw [htokens]
      simp only [Reader.moreArguments, hrow _ (ends_furtherTokens rows rest), hmore,
        Option.bind_eq_bind, Option.bind_some]

theorem readsOperand_call (letters : List Char) {rows : List (List Token)}
    {nodes : List Node} (hrows : List.Forall₂ ReadsExpression rows nodes) :
    ReadsOperand (.word letters :: .opening ::
        ([comma, blank].intercalate rows ++ [.closing]))
      (.outline (Reader.callLabel letters) nodes) := by
  have hall : ∀ᶠ fuel in atTop, List.Forall₂ (fun row node => ∀ rest, Ends rest →
      Reader.expression (Reader.operand fuel) (row ++ rest) = some (node, rest))
        rows nodes := by
    induction hrows with
    | nil => exact Eventually.of_forall fun _ => .nil
    | cons hrow _ ih => exact (hrow.and ih).mono fun _ hfuel => .cons hfuel.1 hfuel.2
  apply eventually_of_succ (hall.and (eventually_ge_atTop (max 1 rows.length)))
  rintro fuel ⟨hexpressions, hfuel⟩ rest -
  cases hexpressions with
  | nil =>
      obtain ⟨fuel, rfl⟩ := Nat.exists_eq_add_one_of_ne_zero (by omega : fuel ≠ 0)
      rfl
  | @cons row node rows nodes hrow hrest =>
      have hlength : rows.length ≤ fuel := by
        simp at hfuel
        omega
      have htokens : .word letters :: .opening ::
          ([comma, blank].intercalate (row :: rows) ++ [.closing]) ++ rest =
            .word letters :: .opening ::
              (row ++ (furtherTokens rows ++ .closing :: rest)) := by
        simp [intercalate_eq_furtherTokens]
      rw [htokens]
      simp only [Reader.operand, Reader.arguments, hrow _ (ends_furtherTokens rows rest),
        moreArguments_eq hrest hlength rest, Option.bind_eq_bind, Option.bind_some]

/-! ## Expressions -/

theorem Reader.expression_of_startsOperand {tokens : List Token}
    (htokens : StartsOperand tokens) (operand : Reader Node) (rest : List Token) :
    Reader.expression operand (tokens ++ rest) =
      (operand (tokens ++ rest)).bind fun (left, rest) => Reader.suffix operand left rest := by
  obtain ⟨token, hhead, hminus, hnot⟩ := htokens
  obtain ⟨others, rfl⟩ := List.head?_eq_some_iff.mp hhead
  simp only [List.cons_append, Reader.expression, if_neg hminus, if_neg hnot]
  rfl

section

variable {tokens : List Token} {node : Node}

theorem ReadsOperand.readsExpression (htokens : ReadsOperand tokens node)
    (hstarts : StartsOperand tokens) : ReadsExpression tokens node := by
  apply htokens.mono
  intro fuel hoperand rest hrest
  rw [Reader.expression_of_startsOperand hstarts, hoperand rest hrest.head?_ne_opening]
  exact hrest.suffix_eq _ _

theorem readsExpression_binary {others : List Token} {right : Node} (op : BinaryOperator)
    (hleft : ReadsOperand tokens node) (hstarts : StartsOperand tokens)
    (hright : ReadsOperand others right) :
    ReadsExpression (tokens ++ ([blank, op.token, blank] ++ others))
      (.outline (.binary op) [node, right]) := by
  apply (hleft.and hright).mono
  rintro fuel ⟨hleft, hright⟩ rest hrest
  have hrow : tokens ++ ([blank, op.token, blank] ++ others) ++ rest =
      tokens ++ (.blank :: op.token :: .blank :: (others ++ rest)) := by simp
  rw [hrow, Reader.expression_of_startsOperand hstarts, hleft _ (by simp)]
  simp only [Option.bind_some, Reader.suffix, if_neg op.token_ne_is,
    Reader.operator?_token, List.drop_one, List.tail_cons,
    hright rest hrest.head?_ne_opening, Option.bind_eq_bind]

theorem readsExpression_trailing {op : UnaryOperator} (hop : op.isTrailing = true)
    (htokens : ReadsOperand tokens node) (hstarts : StartsOperand tokens) :
    ReadsExpression (tokens ++ (Label.unary op).closingTokens)
      (.outline (.unary op) [node]) := by
  apply htokens.mono
  intro fuel hoperand rest _
  rw [List.append_assoc, Reader.expression_of_startsOperand hstarts, hoperand]
  · cases op with
    | isNull => rfl
    | isNotNull => rfl
    | not => cases hop
    | negate => cases hop
  · cases op <;> simp_all [Label.closingTokens, UnaryOperator.isTrailing]

theorem readsExpression_not (htokens : ReadsOperand tokens node) :
    ReadsExpression (.ofString "NOT" :: .blank :: tokens) (.outline (.unary .not) [node]) := by
  apply htokens.mono
  intro fuel hoperand rest hrest
  have hminus : Token.ofString "NOT" ≠ .minus := by decide
  simp only [List.cons_append, Reader.expression, if_neg hminus, if_pos, List.drop_one,
    List.tail_cons, hoperand rest hrest.head?_ne_opening, Option.bind_eq_bind,
    Option.bind_some]

/-- A minus sign that no literal follows is an operator. -/
theorem readsExpression_negate (htokens : ReadsOperand tokens node)
    (hhead : ∃ token, tokens.head? = some token ∧
      ∀ letters, token = .word letters → Literal.isWord letters = false) :
    ReadsExpression (.minus :: tokens) (.outline (.unary .negate) [node]) := by
  apply htokens.mono
  intro fuel hoperand rest hrest
  obtain ⟨token, hhead, hword⟩ := hhead
  obtain ⟨others, rfl⟩ := List.head?_eq_some_iff.mp hhead
  have hread := hoperand rest hrest.head?_ne_opening
  rw [List.cons_append] at hread
  simp only [List.cons_append, Reader.expression, if_pos]
  cases token with
  | word letters =>
      have hletters : ¬ Literal.isWord letters = true := by simp [hword letters rfl]
      simp only [Reader.negative, if_neg hletters, hread, Option.bind_eq_bind,
        Option.bind_some]
  | _ => simp only [Reader.negative, hread, Option.bind_eq_bind, Option.bind_some]

/-- A minus sign in front of a literal belongs to it. -/
theorem readsExpression_signed {letters : List Char}
    (hletters : Literal.isWord letters = true) :
    ReadsExpression [minus, word letters] (Reader.constantOf ('-' :: letters)) := by
  apply Eventually.of_forall
  intro fuel rest _
  simp [Reader.expression, Reader.negative, hletters]

end

end QueryPlan
