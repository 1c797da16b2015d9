import Mathlib.Data.List.Chain
import QueryPlan.Proofs.Annotations.Hints
import QueryPlan.Proofs.Printer.NodeTokens
import QueryPlan.Proofs.Session.Reached

/-!
# No comment markers

Two minus signs in a row open a comment, so a printed plan must not hold them.  Differences,
negations, negative numbers and exponents are all written with a minus sign, and names and
strings may hold one themselves.

If they do not, then no two signs meet.  What follows a child in a text never begins with a
minus sign.  What stands before a child ends with one only under a negation, and there a child
whose text could begin with a sign stands in parentheses.
-/

namespace QueryPlan

namespace Text

/-- No two minus signs stand side by side. -/
def Unmarked (text : List Char) : Prop :=
  text.IsChain fun c next => c = '-' → next ≠ '-'

instance decidableUnmarked : DecidablePred Unmarked := fun _ =>
  inferInstanceAs (Decidable (List.IsChain _ _))

variable {text other : List Char}

theorem Unmarked.lacks_marker (htext : Unmarked text) : ¬ ['-', '-'] <:+: text := by
  intro hmarker
  have hpair : Unmarked ['-', '-'] := List.IsChain.infix htext hmarker
  exact absurd hpair (by decide)

theorem unmarked_of_not_mem (htext : '-' ∉ text) : Unmarked text := by
  refine List.isChain_iff_forall_rel_of_append_cons_cons.mpr ?_
  rintro c next front back rfl rfl
  exact absurd (by simp) htext

theorem head?_ne_of_not_mem (htext : '-' ∉ text) : text.head? ≠ some '-' := fun hhead =>
  htext (List.mem_of_mem_head? hhead)

theorem Unmarked.append (htext : Unmarked text) (hother : Unmarked other)
    (hjoint : text.getLast? = some '-' → other.head? ≠ some '-') : Unmarked (text ++ other) := by
  refine List.IsChain.append htext hother ?_
  rintro _ hlast _ hhead rfl rfl
  exact hjoint hlast hhead

theorem Unmarked.intercalate {separator : List Char} {rows : List (List Char)}
    (hseparator : Unmarked separator) (hhead : separator.head? ≠ some '-')
    (hlast : separator.getLast? ≠ some '-') (hrows : ∀ row ∈ rows, Unmarked row)
    (hne : separator ≠ [] ∨ rows.length ≤ 1) : Unmarked (separator.intercalate rows) := by
  induction rows with
  | nil => exact .nil
  | cons row rest ih =>
      obtain ⟨hrow, hrest⟩ := List.forall_mem_cons.mp hrows
      cases rest with
      | nil => simpa using hrow
      | cons next rest =>
          have hne : separator ≠ [] := hne.resolve_right (by simp)
          rw [List.intercalate_cons_cons]
          refine (hrow.append hseparator fun _ => hhead).append (ih hrest (.inl hne)) ?_
          rw [List.getLast?_append_of_ne_nil _ hne]
          exact fun hminus => absurd hminus hlast

theorem mem_of_mem_doubled {c : Char} (hc : c ∈ doubled text) : c ∈ text := by
  induction text with
  | nil => exact hc
  | cons first rest ih =>
      rw [doubled] at hc
      split at hc <;> simp_all only [List.mem_cons] <;> tauto

theorem not_mem_upperHex (bytes : List UInt8) : '-' ∉ upperHex bytes := by
  have hdigit : ∀ n < 16, '-' ≠ upperHexDigit n := by decide
  induction bytes with
  | nil => simp [upperHex]
  | cons byte rest ih =>
      have hbyte := byte.toNat_lt
      simp [upperHex, hdigit (byte.toNat / 16) (by omega), hdigit (byte.toNat % 16) (by omega), ih]

end Text

open Text

/-! ## Literals -/

/-- A minus sign in front of a text that does not begin with one. -/
theorem Text.Unmarked.signed {text : List Char} (htext : Unmarked text) (negative : Bool)
    (hhead : text.head? ≠ some '-') : Unmarked ((if negative then ['-'] else []) ++ text) := by
  cases negative with
  | false => exact htext
  | true => exact Unmarked.append (List.isChain_singleton '-') htext fun _ => hhead

namespace Numeral

theorem not_mem_of_digits {digits : List Char} (hdigits : ∀ c ∈ digits, c.isDigit) :
    '-' ∉ digits := fun hminus =>
  absurd (hdigits '-' hminus) (by decide)

theorem not_mem_toDigits (n : Nat) : '-' ∉ Nat.toDigits 10 n :=
  not_mem_of_digits fun _ => isDigit_of_mem_toDigits

theorem unmarked_exponentChars (exponent : Int) : Unmarked (exponentChars false exponent) := by
  have hdigits := not_mem_toDigits exponent.natAbs
  have hsigned := (unmarked_of_not_mem hdigits).signed (decide (exponent < 0))
    (head?_ne_of_not_mem hdigits)
  have hletter : Unmarked ['e'] := List.isChain_singleton 'e'
  exact hletter.append (by simpa using hsigned) (by simp)

/-- Only an exponent holds a sign behind the digits. -/
theorem unmarked_body {numeral : Numeral} (hnumeral : numeral.WellFormed) :
    Unmarked (numeral.whole ++ numeral.tail) := by
  have hfraction : '-' ∉ numeral.whole ++
      (if numeral.fraction.isEmpty then [] else '.' :: numeral.fraction) := by
    have hwhole := not_mem_of_digits hnumeral.whole
    have hfraction := not_mem_of_digits hnumeral.fraction
    split <;> simp [hwhole, hfraction]
  rw [tail, ← List.append_assoc]
  refine (unmarked_of_not_mem hfraction).append ?_ fun hlast =>
    absurd (List.mem_of_getLast? hlast) hfraction
  cases numeral.exponent with
  | none => exact .nil
  | some exponent => exact unmarked_exponentChars exponent

end Numeral

theorem Binary64.unmarked_text (x : Binary64) : Unmarked x.text.toList := by
  cases hnan : x.isNaN with
  | true =>
      have htext : x.text = "NaN" := by
        simp [text, hnan]
      rw [htext]
      decide
  | false =>
      cases hinfinite : x.isInfinite with
      | true =>
          rw [toList_text_of_infinite hnan hinfinite]
          cases x.isNegative <;> decide
      | false =>
          have hnumeral := Layout.wellFormed_finite Layout.printed x
          obtain ⟨c, hhead, hc⟩ := Numeral.head?_body hnumeral
          rw [toList_text_of_finite hnan hinfinite]
          refine (Numeral.unmarked_body hnumeral).signed _ ?_
          rw [hhead]
          rintro ⟨⟩
          cases hc

/-- The texts that a label brings with it: its names, and a string. -/
def Label.givenTexts : Label → List String
  | .table name schema aliasName => name :: schema.toList ++ aliasName.toList
  | .column qualifier name _ => name :: qualifier.toList
  | .constant (.string value) _ => [value]
  | .parameter name _ => [name]
  | .call signature _ => signature.name :: signature.declaring.toList
  | _ => []

theorem Literal.unmarked_text (value : Literal)
    (hstring : ∀ text, value = .string text → '-' ∉ text.toList) :
    Unmarked value.text.toList := by
  cases value with
  | null => decide
  | bool value => cases value <;> decide
  | int value =>
      have hdigits := Numeral.not_mem_toDigits value.toInt.natAbs
      rw [(spelling_int value).toList_text]
      exact (unmarked_of_not_mem hdigits).signed _ (head?_ne_of_not_mem hdigits)
  | float value => exact value.unmarked_text
  | string value =>
      have hdoubled : '-' ∉ doubled value.toList := fun hminus =>
        hstring value rfl (mem_of_mem_doubled hminus)
      exact unmarked_of_not_mem (by simp [text, quoted, hdoubled])
  | bytes value => exact unmarked_of_not_mem (by simp [text, not_mem_upperHex value])

/-! ## Labels -/

namespace Label

variable {label : Label}

theorem not_mem_qualified {qualifier : Option String} {name : String}
    (hname : '-' ∉ name.toList) (hqualifier : ∀ text ∈ qualifier, '-' ∉ text.toList) :
    '-' ∉ (qualified qualifier name).toList := by
  cases qualifier with
  | none => exact hname
  | some qualifier => simp [qualified, hname, hqualifier qualifier rfl]

/-- The label of a node whose text cannot begin with a minus sign. -/
def isUnsigned (label : Label) : Bool :=
  !label.isConstant && label != .unary .negate

/-- Negations and constants are the only ones that open with a minus sign of their own. -/
theorem not_mem_opening (hgiven : ∀ text ∈ label.givenTexts, '-' ∉ text.toList)
    (hunsigned : label.isUnsigned = true) : '-' ∉ label.opening.toList := by
  cases label with
  | table name schema aliasName =>
      simp only [givenTexts, List.mem_append, List.mem_cons, Option.mem_toList] at hgiven
      have hqualified := not_mem_qualified (hgiven name (by simp))
        fun text htext => hgiven text (.inl (.inr htext))
      cases aliasName with
      | none => simpa [opening] using hqualified
      | some aliasName => simp [opening, hqualified, hgiven aliasName (by simp)]
  | join form => cases form <;> decide
  | joinOn form => cases form <;> decide
  | column qualifier name type =>
      simp only [givenTexts, List.mem_cons, Option.mem_toList] at hgiven
      exact not_mem_qualified (hgiven name (by simp)) fun text htext => hgiven text (.inr htext)
  | constant value type => cases hunsigned
  | parameter name type =>
      have hname : '-' ∉ name.toList := hgiven name (by simp [givenTexts])
      simp [opening, hname]
  | binary op => simp [opening]
  | unary op => cases op <;> first | decide | cases hunsigned
  | call signature type =>
      simp only [givenTexts, List.mem_cons, Option.mem_toList] at hgiven
      have hqualified : '-' ∉ signature.qualifiedName.toList :=
        not_mem_qualified (hgiven signature.name (by simp))
          fun text htext => hgiven text (.inr htext)
      simp [opening, hqualified]

theorem unmarked_opening (hgiven : ∀ text ∈ label.givenTexts, '-' ∉ text.toList) :
    Unmarked label.opening.toList := by
  by_cases hunsigned : label.isUnsigned = true
  · exact unmarked_of_not_mem (not_mem_opening hgiven hunsigned)
  · cases label with
    | constant value type =>
        refine value.unmarked_text ?_
        rintro text rfl
        exact hgiven text (by simp [givenTexts])
    | unary op => cases op <;> decide
    | _ => exact absurd rfl hunsigned

/-- A text between two children has no sign at its ends. -/
theorem unmarked_separator (label : Label) : Unmarked label.separator.toList ∧
    label.separator.toList.head? ≠ some '-' ∧ label.separator.toList.getLast? ≠ some '-' := by
  have hon : Unmarked " ON ".toList := by decide
  have hcomma : Unmarked ", ".toList := by decide
  cases label with
  | binary op => cases op <;> decide
  | joinOn form => exact ⟨hon, by simp [separator], by simp [separator]⟩
  | call signature type => exact ⟨hcomma, by simp [separator], by simp [separator]⟩
  | _ => exact ⟨.nil, by simp [separator], by simp [separator]⟩

theorem not_mem_closing (label : Label) : '-' ∉ label.closing.toList := by
  cases label with
  | unary op => cases op <;> decide
  | _ => simp [closing]

/-- Only a node with a single child has nothing between its children. -/
theorem arity_le_one_of_separator_eq_nil (hseparator : label.separator.toList = []) :
    label.arity ≤ 1 := by
  cases label <;> simp_all [separator, arity]

/-- Only a leaf, or an operation that stands in parentheses, may have nothing in front. -/
theorem arity_eq_zero_of_opening_eq_nil (hcompound : label.isCompound = false)
    (hopening : label.opening.toList = []) : label.arity = 0 := by
  cases label with
  | join form => cases form <;> cases hopening
  | joinOn form => cases form <;> cases hopening
  | binary op => cases hcompound
  | unary op => cases hcompound
  | call signature type => simp [opening] at hopening
  | _ => rfl

end Label

/-! ## Plans -/

section

variable [ForeignTypes]

open Session

namespace Node

variable {node : Node}

/-- Neither a name nor a string in the plan holds a minus sign. -/
def Signless (node : Node) : Prop :=
  ∀ part ∈ node.preorder, ∀ text ∈ part.label.givenTexts, '-' ∉ text.toList

theorem signless_iff : node.Signless ↔
    (∀ text ∈ node.label.givenTexts, '-' ∉ text.toList) ∧
      ∀ child ∈ node.children, child.Signless :=
  forall_mem_preorder_iff

/-- The characters of a child under a label. -/
def operandChars (parent : Label) (child : Node) : List Char :=
  if parent.encloses child.label then '(' :: ((child.print ⟨false⟩).toList ++ [')'])
  else (child.print ⟨false⟩).toList

/-- What a node writes behind its opening. -/
def innerChars (node : Node) : List Char :=
  node.label.separator.toList.intercalate (node.children.map (operandChars node.label)) ++
    node.label.closing.toList

theorem toList_print_eq (node : Node) :
    (node.print ⟨false⟩).toList = node.label.opening.toList ++ node.innerChars := by
  have hrows : (node.children.map fun child =>
      node.label.operandText child.label (print ⟨false⟩ child)).map String.toList =
        node.children.map (operandChars node.label) := by
    rw [List.map_map]
    apply List.map_congr_left
    intro child _
    simp only [Function.comp_apply, Label.operandText, operandChars]
    split <;> simp
  rw [print_eq, innerChars, ← hrows]
  simp [String.toList_intercalate, Annotations.suffix]

/-- Names, calls and joins do not begin with a minus sign. -/
theorem head?_print_ne (hnode : node.WellFormed) (hsignless : node.Signless)
    (hcompound : node.label.isCompound = false) (hconstant : node.label.isConstant = false) :
    (node.print ⟨false⟩).toList.head? ≠ some '-' := by
  have hunsigned : node.label.isUnsigned = true := by
    have hnegate : node.label ≠ .unary .negate := by
      intro hlabel
      rw [hlabel] at hcompound
      cases hcompound
    simp [Label.isUnsigned, hconstant, hnegate]
  have hopening := Label.not_mem_opening (signless_iff.mp hsignless).1 hunsigned
  rw [toList_print_eq, innerChars]
  by_cases hempty : node.label.opening.toList = []
  · have harity := Label.arity_eq_zero_of_opening_eq_nil hcompound hempty
    have hchildren : node.children = [] := List.eq_nil_of_length_eq_zero (hnode.arity.trans harity)
    rw [hempty, hchildren]
    exact head?_ne_of_not_mem node.label.not_mem_closing
  · rw [List.head?_append_of_ne_nil _ hempty]
    exact head?_ne_of_not_mem hopening

/-- A negation encloses whatever could begin with a minus sign. -/
theorem head?_operandChars_negate (hnode : node.WellFormed) (hsignless : node.Signless) :
    (operandChars (.unary .negate) node).head? ≠ some '-' := by
  unfold operandChars
  split
  · simp
  · rename_i hbare
    have hlabel : node.label.isCompound = false ∧ node.label.isConstant = false := by
      simpa [Label.encloses] using hbare
    exact head?_print_ne hnode hsignless hlabel.1 hlabel.2

theorem unmarked_operandChars {parent : Label} (hchild : Unmarked (node.print ⟨false⟩).toList) :
    Unmarked (operandChars parent node) := by
  unfold operandChars
  split
  · have hopening : Unmarked ['('] := List.isChain_singleton '('
    have hclosing : Unmarked [')'] := List.isChain_singleton ')'
    exact hopening.append (hchild.append hclosing (by simp)) (by simp)
  · exact hchild

theorem unmarked_innerChars (hnode : node.WellFormed)
    (hchildren : ∀ child ∈ node.children, Unmarked (child.print ⟨false⟩).toList) :
    Unmarked node.innerChars := by
  obtain ⟨hseparator, hhead, hlast⟩ := node.label.unmarked_separator
  have hclosing := node.label.not_mem_closing
  have hrows : ∀ row ∈ node.children.map (operandChars node.label), Unmarked row := by
    intro row hrow
    obtain ⟨child, hchild, rfl⟩ := List.mem_map.mp hrow
    exact unmarked_operandChars (hchildren child hchild)
  have hcount : node.label.separator.toList ≠ [] ∨
      (node.children.map (operandChars node.label)).length ≤ 1 := by
    rw [List.length_map, hnode.arity]
    exact (Classical.em _).imp_right fun hseparator =>
      Label.arity_le_one_of_separator_eq_nil (Classical.not_not.mp hseparator)
  exact (hseparator.intercalate hhead hlast hrows hcount).append
    (unmarked_of_not_mem hclosing) fun _ => head?_ne_of_not_mem hclosing

/-- Behind a sign of its own a node does not go on with another: a constant has no children, and
a negation encloses its child. -/
theorem head?_innerChars_ne (hnode : node.WellFormed)
    (hchildren : ∀ child ∈ node.children, child.WellFormed ∧ child.Signless)
    (hsigned : ¬ node.label.isUnsigned = true) : node.innerChars.head? ≠ some '-' := by
  have harity := hnode.arity
  rw [innerChars]
  cases hlabel : node.label with
  | constant value type =>
      rw [hlabel] at harity
      obtain hnil : node.children = [] := List.eq_nil_of_length_eq_zero harity
      simp [hnil, Label.closing]
  | unary op =>
      cases op with
      | negate =>
          rw [hlabel] at harity
          obtain ⟨child, hchild⟩ := List.length_eq_one_iff.mp harity
          obtain ⟨hwell, hsignless⟩ := hchildren child (by simp [hchild])
          have hfirst := head?_operandChars_negate hwell hsignless
          simpa [hchild, Label.closing, UnaryOperator.isTrailing] using hfirst
      | _ => exact absurd (by rw [hlabel]; rfl) hsigned
  | _ => exact absurd (by rw [hlabel]; rfl) hsigned

theorem unmarked_print (hwhole : node.Whole) (hsignless : node.Signless) :
    Unmarked (node.print ⟨false⟩).toList := by
  induction node using Node.inductionOn with
  | step node ih =>
      obtain ⟨hwell, hparts⟩ := whole_iff.mp hwhole
      obtain ⟨hgiven, hchildren⟩ := signless_iff.mp hsignless
      have hinner := unmarked_innerChars hwell fun child hchild =>
        ih child hchild (hparts child hchild) (hchildren child hchild)
      rw [toList_print_eq]
      refine (Label.unmarked_opening hgiven).append hinner fun hsign => ?_
      by_cases hunsigned : node.label.isUnsigned = true
      · exact absurd (List.mem_of_getLast? hsign) (Label.not_mem_opening hgiven hunsigned)
      · exact head?_innerChars_ne hwell (fun child hchild =>
          ⟨(whole_iff.mp (hparts child hchild)).1, hchildren child hchild⟩) hunsigned

/-- The text of a known plan without annotations holds no comment marker, unless a name or a
string brings a minus sign. -/
theorem print_has_no_comment_marker {session : Session} (hreached : session.Reached)
    (hnode : session.Knows node) (hsignless : node.Signless) :
    ¬ ['-', '-'] <:+: (node.print ⟨false⟩).toList :=
  (unmarked_print (hreached.sound.whole hnode) hsignless).lacks_marker

end Node

end

open Text Session
open scoped Hints

namespace Node

/-- A call on the negation of a negative number and on a difference from a small negative
one. -/
theorem print_has_no_comment_marker_call :
    ∃ (session : Session) (call : Node), session.Reached ∧ session.Knows call ∧ call.Signless ∧
      call.print ⟨false⟩ = "f(-(-1), x - (-1e-7))" ∧
      ¬ ['-', '-'] <:+: (call.print ⟨false⟩).toList := by
  let one := (Label.constant (.int (-1)) .integer).node 0 .empty []
  let negated := (Label.unary .negate).node 1 .empty [one]
  let column := (Label.column none "x" .float).node 2 .empty []
  let small := (Label.constant (.float ⟨0xbe7ad7f29abcaf48⟩) .float).node 3 .empty []
  let difference := (Label.binary .subtract).node 4 .empty [column, small]
  let call := (Label.call ⟨none, "f", ["a-b", "c"]⟩ .float).node 5 .empty [negated, difference]
  let session : Session := ⟨6, [call, difference, small, column, negated, one]⟩
  have hone : Reached ⟨1, [one]⟩ := (Reached.start 0).assemble (by simp) rfl
  have hnegated : Reached ⟨2, [negated, one]⟩ := hone.assemble (by simp) rfl
  have hcolumn : Reached ⟨3, [column, negated, one]⟩ := hnegated.assemble (by simp) rfl
  have hsmall : Reached ⟨4, [small, column, negated, one]⟩ := hcolumn.assemble (by simp) rfl
  have hdifference : Reached ⟨5, [difference, small, column, negated, one]⟩ :=
    hsmall.assemble (by simp) rfl
  have hreached : session.Reached := hdifference.assemble (by simp) rfl
  have hnode : session.Knows call := Session.knows_of_mem_held (by simp [session])
  have hsignless : call.Signless := by
    unfold Signless
    decide
  exact ⟨session, call, hreached, hnode, hsignless, by decide +kernel,
    print_has_no_comment_marker hreached hnode hsignless⟩

end Node

end QueryPlan
