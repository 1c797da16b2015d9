import QueryPlan.Proofs.Node.WellFormed
import QueryPlan.Proofs.Printer.Tokens

/-!
# The tokens of a plan

Printing without annotations writes a row of tokens.  If all names in a plan are
words of their own, then the row is separated, and so the text of the plan
determines its tokens.
-/

namespace QueryPlan

open Token

def Token.ofString (word : String) : Token :=
  .word word.toList

def Literal.tokens : Literal → List Token
  | string value => [.text value.toList]
  | value =>
      match value.text.toList with
      | '-' :: rest => [.minus, .word rest]
      | chars => [.word chars]

namespace BinaryOperator

def token : BinaryOperator → Token
  | subtract => .minus
  | op => .ofString op.symbol

theorem chars_token (op : BinaryOperator) : op.token.chars = op.symbol.toList := by
  cases op <;> rfl

end BinaryOperator

namespace Label

def openingTokens : Label → List Token
  | table name schema aliasName =>
      .ofString (qualified schema name) ::
        match aliasName with
        | some aliasName => [.blank, .ofString "AS", .blank, .ofString aliasName]
        | none => []
  | join .cross => [.ofString "CROSS", .blank, .ofString "JOIN", .blank]
  | join .crossApply => [.ofString "CROSS", .blank, .ofString "APPLY", .blank]
  | join .outerApply => [.ofString "OUTER", .blank, .ofString "APPLY", .blank]
  | joinOn .inner => [.ofString "INNER", .blank, .ofString "JOIN", .blank]
  | joinOn .left => [.ofString "LEFT", .blank, .ofString "JOIN", .blank]
  | column qualifier name _ => [.ofString (qualified qualifier name)]
  | constant value _ => value.tokens
  | parameter name _ => [.word ('@' :: name.toList)]
  | binary _ => []
  | unary .not => [.ofString "NOT", .blank]
  | unary .negate => [.minus]
  | unary _ => []
  | call signature _ => [.ofString signature.qualifiedName, .opening]

def separatorTokens : Label → List Token
  | joinOn _ => [.blank, .ofString "ON", .blank]
  | binary op => [.blank, op.token, .blank]
  | call .. => [.comma, .blank]
  | _ => []

def closingTokens : Label → List Token
  | unary .isNull => [.blank, .ofString "IS", .blank, .ofString "NULL"]
  | unary .isNotNull =>
      [.blank, .ofString "IS", .blank, .ofString "NOT", .blank, .ofString "NULL"]
  | call .. => [.closing]
  | _ => []

/-- The tokens of a child under a label. -/
def operandTokens (parent child : Label) (tokens : List Token) : List Token :=
  if parent.encloses child then .opening :: (tokens ++ [.closing]) else tokens

end Label

/-! ## Rendering labels -/

theorem Literal.render_tokens (value : Literal) :
    render value.tokens = value.text.toList := by
  cases value with
  | string s => simp [tokens, render, chars, text, Text.quoted]
  | _ =>
      simp only [tokens]
      split <;> simp_all [render, chars]

namespace Label

theorem render_openingTokens (label : Label) :
    render label.openingTokens = label.opening.toList := by
  cases label with
  | table name schema aliasName =>
      cases aliasName <;> simp [openingTokens, opening, render, chars, ofString]
  | join form => cases form <;> simp [openingTokens, opening, render, chars, ofString]
  | joinOn form => cases form <;> simp [openingTokens, opening, render, chars, ofString]
  | constant value type => exact value.render_tokens
  | unary op =>
      cases op <;> simp [openingTokens, opening, render, chars, ofString,
        UnaryOperator.isTrailing, UnaryOperator.symbol]
  | _ => simp [openingTokens, opening, render, chars, ofString]

theorem render_separatorTokens (label : Label) :
    render label.separatorTokens = label.separator.toList := by
  cases label with
  | binary op =>
      have hrender : render [.blank, op.token, .blank] = ' ' :: (op.token.chars ++ [' ']) := by
        simp [render, show Token.blank.chars = [' '] from rfl]
      simp [separatorTokens, separator, hrender, op.chars_token]
  | _ => simp [separatorTokens, separator, render, chars, ofString]

theorem render_closingTokens (label : Label) :
    render label.closingTokens = label.closing.toList := by
  cases label with
  | unary op =>
      cases op <;> simp [closingTokens, closing, render, chars, ofString,
        UnaryOperator.isTrailing, UnaryOperator.symbol]
  | _ => simp [closingTokens, closing, render, chars]

/-- The text of a child under a label. -/
def operandText (parent child : Label) (text : String) : String :=
  if parent.encloses child then "(" ++ text ++ ")" else text

end Label

/-! ## Nodes -/

variable [ForeignTypes]

namespace Node

mutual

def tokens (node : Node) : List Token :=
  match node with
  | ⟨_, label, _, _, children⟩ =>
      label.openingTokens
        ++ label.separatorTokens.intercalate (tokensAll label children)
        ++ label.closingTokens

def tokensAll (parent : Label) : List Node → List (List Token)
  | [] => []
  | child :: rest =>
      parent.operandTokens child.label (tokens child) :: tokensAll parent rest

end

theorem tokensAll_eq_map (parent : Label) (children : List Node) :
    tokensAll parent children =
      children.map fun child => parent.operandTokens child.label child.tokens := by
  induction children with
  | nil => rfl
  | cons child rest ih => rw [tokensAll, ih, List.map_cons]

theorem tokens_eq (node : Node) :
    node.tokens = node.label.openingTokens ++
      node.label.separatorTokens.intercalate (node.children.map fun child =>
        node.label.operandTokens child.label child.tokens) ++
      node.label.closingTokens := by
  cases node
  rw [tokens, tokensAll_eq_map]

theorem printAll_eq_map (settings : PrintSettings) (parent : Label)
    (children : List Node) :
    printAll settings parent children = children.map fun child =>
      parent.operandText child.label (print settings child) := by
  induction children with
  | nil => rfl
  | cons child rest ih => rw [printAll, ih, List.map_cons, Label.operandText]

theorem print_eq (settings : PrintSettings) (node : Node) :
    node.print settings = node.label.opening ++
      node.label.separator.intercalate (node.children.map fun child =>
        node.label.operandText child.label (print settings child)) ++
      node.label.closing ++ node.annotations.suffix settings := by
  cases node
  rw [print, printAll_eq_map]

/-- The printed text is the row of tokens. -/
theorem toList_print (node : Node) : (node.print ⟨false⟩).toList = render node.tokens := by
  induction node using Node.inductionOn with
  | step node ih =>
      have hchildren : (node.children.map fun child =>
          node.label.operandText child.label (print ⟨false⟩ child)).map String.toList =
            (node.children.map fun child =>
              node.label.operandTokens child.label child.tokens).map render := by
        rw [List.map_map, List.map_map]
        apply List.map_congr_left
        intro child hchild
        simp only [Function.comp_apply, Label.operandTokens, Label.operandText]
        split
        · simp [ih child hchild, render, chars]
        · exact ih child hchild
      rw [print_eq, tokens_eq, render_append, render_append, render_intercalate,
        ← hchildren, Label.render_openingTokens, Label.render_separatorTokens,
        Label.render_closingTokens]
      simp [String.toList_intercalate, Annotations.suffix]

end Node

end QueryPlan
