import QueryPlan.Proofs.Annotations.Hints
import QueryPlan.Proofs.Binary64
import QueryPlan.Proofs.Cache.Refinement
import QueryPlan.Proofs.Printer.NodeTokens
import QueryPlan.Proofs.Text.Difference

/-!
# Texts of equal plans

Equality takes both zeros for one number, but a text shows the sign of a zero.
Plans that are the same have one text exactly when their zeros have the same
signs, in constants and in annotations alike.

A text does not show the sign of a NaN.  An operator looks at the sign when it
decides on parentheses, so this is said of plans whose NaN operands have the
same signs.
-/

namespace QueryPlan

open Text

/-! ## Signs that agree -/

/-- If both are zeros, they have one sign. -/
def Literal.ZerosAgree : Literal → Literal → Prop
  | .float x, .float y =>
      x.isZero = true → y.isZero = true → x.isNegative = y.isNegative
  | _, _ => True

def Label.ZerosAgree : Label → Label → Prop
  | .constant a _, .constant b _ => a.ZerosAgree b
  | _, _ => True

/-- If both are NaNs, they have one sign. -/
def Label.NaNsAgree : Label → Label → Prop
  | .constant (.float x) _, .constant (.float y) _ =>
      x.isNaN = true → y.isNaN = true → x.isNegative = y.isNegative
  | _, _ => True

/-- Whether parentheses around an operand depend on its sign. -/
def Label.minds : Label → Bool
  | binary _ => true
  | unary op => op != .negate
  | _ => false

/-! ## Texts of equal labels -/

namespace Binary64

variable {x y : Binary64}

theorem eq_of_isZero (hx : x.isZero = true) (hy : y.isZero = true)
    (hsign : x.isNegative = y.isNegative) : x = y := by
  rw [isZero_iff] at hx hy
  exact eq_of_magnitude_eq hsign (hx.trans hy.symm)

/-- The text of a zero begins with a minus sign or with a digit. -/
theorem exists_toList_text_of_isZero (hx : x.isZero = true) :
    ∃ c rest, c.isDigit ∧
      x.text.toList = (if x.isNegative then ['-'] else []) ++ c :: rest := by
  obtain ⟨c, hhead, hc⟩ :=
    Numeral.head?_body (Layout.wellFormed_finite Layout.printed x)
  obtain ⟨rest, hbody⟩ := List.head?_eq_some_iff.mp hhead
  refine ⟨c, rest, hc, ?_⟩
  rw [toList_text_of_finite (isNaN_of_isZero hx) (isInfinite_of_isZero hx), hbody]

theorem diverge_text_of_isZero (hx : x.isZero = true) (hy : y.isZero = true)
    (hsign : x.isNegative ≠ y.isNegative) : Diverge x.text.toList y.text.toList := by
  obtain ⟨c, rest, hc, htext⟩ := exists_toList_text_of_isZero hx
  obtain ⟨c', rest', hc', htext'⟩ := exists_toList_text_of_isZero hy
  have hminus : ∀ d : Char, d.isDigit = true → '-' ≠ d := by
    rintro d hd rfl
    simp at hd
  rw [htext, htext']
  cases hnegative : x.isNegative <;> cases hnegative' : y.isNegative
  · exact absurd (hnegative.trans hnegative'.symm) hsign
  · exact diverge_cons (hminus c hc).symm _ _
  · exact diverge_cons (hminus c' hc') _ _
  · exact absurd (hnegative.trans hnegative'.symm) hsign

/-- Only zeros and NaNs have patterns of both signs in their class. -/
theorem isZero_of_isNegative_ne (hcanonical : x.canonical = y.canonical)
    (hsign : x.isNegative ≠ y.isNegative)
    (hnan : x.isNaN = true → y.isNaN = true → x.isNegative = y.isNegative) :
    x.isZero = true ∧ y.isZero = true := by
  have hsame := (same_iff_canonical_eq x y).mpr hcanonical
  simp only [same, Bool.or_eq_true, Bool.and_eq_true, decide_eq_true_eq] at hsame
  rcases hsame with (rfl | ⟨hx, hy⟩) | hzero
  · exact absurd rfl hsign
  · exact absurd (hnan hx hy) hsign
  · exact hzero

theorem tells_text (hcanonical : x.canonical = y.canonical) :
    Tells (x.isZero = true → y.isZero = true → x.isNegative = y.isNegative)
      x.text.toList y.text.toList := by
  have hsame := (same_iff_canonical_eq x y).mpr hcanonical
  simp only [same, Bool.or_eq_true, Bool.and_eq_true, decide_eq_true_eq] at hsame
  rcases hsame with (rfl | ⟨hx, hy⟩) | ⟨hx, hy⟩
  · exact tells_self (fun _ _ => rfl) _
  · have htext : x.text = y.text := by simp only [text, hx, hy, if_true]
    rw [htext]
    refine tells_self (fun hzero => ?_) _
    rw [isNaN_of_isZero hzero] at hx
    contradiction
  · by_cases hsign : x.isNegative = y.isNegative
    · rw [eq_of_isZero hx hy hsign]
      exact tells_self (fun _ _ => rfl) _
    · exact .inr ⟨fun hzero => hsign (hzero hx hy), diverge_text_of_isZero hx hy hsign⟩

end Binary64

/-- Literals of one normal form are equal, or floats of one class. -/
theorem Literal.eq_or_float_of_normal_eq {a b : Literal} (hnormal : a.normal = b.normal) :
    a = b ∨ ∃ x y : Binary64, a = .float x ∧ b = .float y ∧ x.canonical = y.canonical := by
  cases a <;> cases b <;> simp_all [Literal.normal]

theorem Label.eq_or_float_of_normal_eq {a b : Label} (hnormal : a.normal = b.normal) :
    a = b ∨ ∃ (x y : Binary64) (type : DataType), a = .constant (.float x) type ∧
      b = .constant (.float y) type ∧ x.canonical = y.canonical := by
  cases a with
  | constant value type =>
      cases b with
      | constant value' type' =>
          obtain ⟨hvalue, rfl⟩ := Label.constant.inj hnormal
          rcases Literal.eq_or_float_of_normal_eq hvalue with rfl | ⟨x, y, rfl, rfl, heq⟩
          · exact .inl rfl
          · exact .inr ⟨x, y, type, rfl, rfl, heq⟩
      | _ => cases hnormal
  | _ => cases b <;> first | exact .inl hnormal | cases hnormal

theorem Literal.zerosAgree_self (value : Literal) : value.ZerosAgree value := by
  cases value <;> simp [ZerosAgree]

theorem Literal.tells_text {a b : Literal} (hnormal : a.normal = b.normal) :
    Tells (a.ZerosAgree b) a.text.toList b.text.toList := by
  rcases eq_or_float_of_normal_eq hnormal with rfl | ⟨x, y, rfl, rfl, heq⟩
  · exact tells_self a.zerosAgree_self _
  · exact Binary64.tells_text heq

namespace Label

theorem tells_opening {a b : Label} (hnormal : a.normal = b.normal) :
    Tells (a.ZerosAgree b) a.opening.toList b.opening.toList := by
  rcases eq_or_float_of_normal_eq hnormal with rfl | ⟨x, y, type, rfl, rfl, heq⟩
  · refine tells_self ?_ _
    cases a <;> simp [ZerosAgree, Literal.zerosAgree_self]
  · exact Binary64.tells_text heq

theorem separator_closing_eq {a b : Label} (hnormal : a.normal = b.normal) :
    a.separator = b.separator ∧ a.closing = b.closing := by
  rcases eq_or_float_of_normal_eq hnormal with rfl | ⟨x, y, type, rfl, rfl, -⟩ <;>
    exact ⟨rfl, rfl⟩

theorem encloses_float {parent : Label} (hminds : parent.minds = true) (x : Binary64)
    (type : DataType) :
    parent.encloses (.constant (.float x) type) = x.isNegative := by
  cases parent <;>
    simp_all [encloses, minds, isCompound, isConstant, Literal.isNegative]

/-- Whether a constant stands in parentheses depends on its sign at most, and
only under operators that mind it. -/
theorem encloses_eq {parent parent' a b : Label} (hparent : parent.normal = parent'.normal)
    (hnormal : a.normal = b.normal) :
    parent.encloses a = parent'.encloses b ∨
      parent.minds = true ∧ ∃ (x y : Binary64) (type : DataType),
        a = .constant (.float x) type ∧ b = .constant (.float y) type ∧
        x.canonical = y.canonical ∧ x.isNegative ≠ y.isNegative := by
  rcases eq_or_float_of_normal_eq hparent with rfl | ⟨_, _, _, rfl, rfl, -⟩
  · rcases eq_or_float_of_normal_eq hnormal with rfl | ⟨x, y, type, rfl, rfl, heq⟩
    · exact .inl rfl
    · by_cases hsign : x.isNegative = y.isNegative
      · left
        cases parent <;> simp [encloses, isCompound, Literal.isNegative, isConstant, hsign]
      · cases hminds : parent.minds with
        | true => exact .inr ⟨rfl, x, y, type, rfl, rfl, heq, hsign⟩
        | false =>
            left
            cases parent <;> simp_all [encloses, minds, isConstant]
  · exact .inl rfl

end Label

/-! ## Plans -/

section

variable [ForeignTypes]

open ForeignTypes (LawfulEqual LawfulDigest LawfulText)

def NoteValue.ZerosAgree : NoteValue → NoteValue → Prop
  | .literal a, .literal b => a.ZerosAgree b
  | _, _ => True

/-- Zeros at the same places, in constants or in annotations, have one sign. -/
inductive Node.ZerosAgree : Node → Node → Prop
  | intro {a b : Node} :
      a.label.ZerosAgree b.label →
      List.Forall₂ (fun note note' : Note => note.value.ZerosAgree note'.value)
        a.annotations.notes b.annotations.notes →
      List.Forall₂ ZerosAgree a.children b.children → ZerosAgree a b

/-- NaNs that are operands at the same places have one sign. -/
inductive Node.NaNOperandsAgree : Node → Node → Prop
  | intro {a b : Node} :
      (a.label.minds = true →
        List.Forall₂ (fun x y : Node => x.label.NaNsAgree y.label)
          a.children b.children) →
      List.Forall₂ NaNOperandsAgree a.children b.children → NaNOperandsAgree a b

theorem Node.zerosAgree_iff (a b : Node) :
    a.ZerosAgree b ↔ a.label.ZerosAgree b.label ∧
      List.Forall₂ (fun note note' : Note => note.value.ZerosAgree note'.value)
        a.annotations.notes b.annotations.notes ∧
      List.Forall₂ ZerosAgree a.children b.children :=
  ⟨fun ⟨hlabel, hnotes, hchildren⟩ => ⟨hlabel, hnotes, hchildren⟩,
    fun ⟨hlabel, hnotes, hchildren⟩ => ⟨hlabel, hnotes, hchildren⟩⟩

theorem Note.tells_text [LawfulText] {note note' : Note}
    (hnormal : note.normal = note'.normal) :
    Tells (note.value.ZerosAgree note'.value) note.text.toList note'.text.toList := by
  obtain ⟨name, value⟩ := note
  obtain ⟨name', value'⟩ := note'
  obtain ⟨rfl, hvalue⟩ := Note.mk.inj hnormal
  have hvalues : Tells (value.ZerosAgree value') value.text.toList
      value'.text.toList := by
    cases value with
    | literal a =>
        cases value' with
        | literal b => exact Literal.tells_text (NoteValue.literal.inj hvalue)
        | foreign b => cases hvalue
    | foreign a =>
        cases value' with
        | literal b => cases hvalue
        | foreign b =>
            have htext := Foreign.eq_of_representative_eq (fun _ _ => Foreign.text_eq_of_same)
              (NoteValue.foreign.inj hvalue)
            rw [NoteValue.text, NoteValue.text, htext]
            exact tells_self trivial _
  have htext := hvalues.self_append (name ++ "=").toList
  rwa [← String.toList_append, ← String.toList_append] at htext

theorem Annotations.suffix_default (annotations : Annotations) :
    annotations.suffix .default =
      if annotations.notes = [] then "" else " " ++ annotations.text := by
  cases hentries : annotations.entries <;>
    simp [suffix, PrintSettings.default, isEmpty, size, notes, hentries]

theorem Annotations.tells_suffix [LawfulText] {a b : Annotations}
    (hnormal : a.normal = b.normal) :
    Tells (List.Forall₂ (fun note note' : Note => note.value.ZerosAgree note'.value)
        a.notes b.notes)
      (a.suffix .default).toList (b.suffix .default).toList := by
  have hnotes : List.Forall₂ (fun note note' : Note => note.normal = note'.normal)
      a.notes b.notes :=
    map_eq_map_iff_forall₂.mp (by rw [← notes_normal, ← notes_normal, hnormal])
  have hrow := tells_intercalate ", ".toList (hnotes.imp fun _ _ => Note.tells_text)
  rw [suffix_default, suffix_default, text, text]
  have hempty : a.notes = [] ↔ b.notes = [] := by
    rw [← List.length_eq_zero_iff, hnotes.length_eq, List.length_eq_zero_iff]
  by_cases hnone : a.notes = []
  · rw [if_pos hnone, if_pos (hempty.mp hnone), hnone, hempty.mp hnone]
    exact tells_self .nil _
  · rw [if_neg hnone, if_neg (hempty.not.mp hnone)]
    simpa [String.toList_intercalate, Function.comp_def] using
      (hrow.append_self "]".toList).self_append " [".toList

namespace Node

theorem exists_toList_print (node : Node) (settings : PrintSettings) :
    ∃ back, (node.print settings).toList = node.label.opening.toList ++ back := by
  rw [print_eq]
  simp only [String.toList_append, List.append_assoc]
  exact ⟨_, rfl⟩

/-- No number is written in parentheses by itself. -/
theorem exists_toList_text_of_float {node : Node} {x : Binary64} {type : DataType}
    (hlabel : node.label = .constant (.float x) type) :
    ∃ c rest, c ≠ '(' ∧ node.text.toList = c :: rest := by
  obtain ⟨signed, word, hspelling⟩ := Literal.exists_spelling_float x
  obtain ⟨c, hhead, hminus⟩ := Literal.head?_of_isWord hspelling.isWord
  obtain ⟨rest, rfl⟩ := List.head?_eq_some_iff.mp hhead
  have hplain := hspelling.plain c List.mem_cons_self
  obtain ⟨back, hprint⟩ := node.exists_toList_print .default
  rw [text, hprint, hlabel, Label.opening, hspelling.toList_text]
  cases signed with
  | true => exact ⟨'-', _, by decide, rfl⟩
  | false =>
      refine ⟨c, _, ?_, rfl⟩
      rintro rfl
      cases hplain

/-- Of two floats with different signs, an operator that minds the sign puts one in
parentheses. -/
theorem diverge_operandText {parent parent' : Label} (hminds : parent.minds = true)
    (hminds' : parent'.minds = true) {a b : Node} {x y : Binary64} {type : DataType}
    (ha : a.label = .constant (.float x) type) (hb : b.label = .constant (.float y) type)
    (hsign : x.isNegative ≠ y.isNegative) :
    Diverge (parent.operandText a.label a.text).toList
      (parent'.operandText b.label b.text).toList := by
  rw [Label.operandText, Label.operandText, ha, hb, Label.encloses_float hminds,
    Label.encloses_float hminds']
  cases hnegative : x.isNegative <;> cases hnegative' : y.isNegative
  · exact absurd (hnegative.trans hnegative'.symm) hsign
  · obtain ⟨c, rest, hne, hlist⟩ := exists_toList_text_of_float ha
    simpa [hlist] using diverge_cons hne rest _
  · obtain ⟨c, rest, hne, hlist⟩ := exists_toList_text_of_float hb
    simpa [hlist] using diverge_cons hne.symm _ rest
  · exact absurd (hnegative.trans hnegative'.symm) hsign

theorem tells_operandText {parent parent' : Label} (hparent : parent.normal = parent'.normal)
    {a b : Node} (hnormal : a.normal = b.normal)
    (hnans : parent.minds = true → a.label.NaNsAgree b.label)
    (htells : Tells (a.ZerosAgree b) a.text.toList b.text.toList) :
    Tells (a.ZerosAgree b) (parent.operandText a.label a.text).toList
      (parent'.operandText b.label b.text).toList := by
  obtain ⟨hlabel, -, -⟩ := parts_normal_eq hnormal
  rcases Label.encloses_eq hparent hlabel with heq |
    ⟨hminds, x, y, type, ha, hb, hcanonical, hsign⟩
  · rw [Label.operandText, Label.operandText, heq]
    split
    · simpa using (htells.self_append "(".toList).append_self ")".toList
    · exact htells
  · have hagree := hnans hminds
    rw [ha, hb] at hagree
    obtain ⟨hx, hy⟩ := Binary64.isZero_of_isNegative_ne hcanonical hsign hagree
    have hdisagree : ¬ a.ZerosAgree b := by
      rw [zerosAgree_iff, ha, hb]
      exact fun hzeros => hsign (hzeros.1 hx hy)
    have hminds' : parent'.minds = true := by
      rcases Label.eq_or_float_of_normal_eq hparent with rfl | ⟨_, _, _, rfl, rfl, -⟩
      · exact hminds
      · cases hminds
    exact .inr ⟨hdisagree, diverge_operandText hminds hminds' ha hb hsign⟩

/-- The texts of plans with one normal form tell whether their zeros agree. -/
theorem tells_text [LawfulText] {a b : Node} (hnormal : a.normal = b.normal)
    (hnans : a.NaNOperandsAgree b) :
    Tells (a.ZerosAgree b) a.text.toList b.text.toList := by
  induction a using Node.inductionOn generalizing b with
  | step a ih =>
      obtain ⟨hoperands, hparts⟩ := hnans
      obtain ⟨hlabel, hannotations, hchildren⟩ := parts_normal_eq hnormal
      have hrow : List.Forall₂ (fun x y : Node => Tells (x.ZerosAgree y)
          (a.label.operandText x.label x.text).toList
          (b.label.operandText y.label y.text).toList) a.children b.children := by
        obtain ⟨hlength, hequal⟩ := List.forall₂_iff_get.mp hchildren
        obtain ⟨-, hagree⟩ := List.forall₂_iff_get.mp hparts
        refine List.forall₂_iff_get.mpr ⟨hlength, fun place hplace hplace' => ?_⟩
        refine tells_operandText hlabel (hequal place hplace hplace') ?_
          (ih _ (List.get_mem _ _) (hequal place hplace hplace')
            (hagree place hplace hplace'))
        intro hminds
        exact (List.forall₂_iff_get.mp (hoperands hminds)).2 place hplace hplace'
      have hfixed := Label.separator_closing_eq hlabel
      have htext := ((Label.tells_opening hlabel).append
        ((tells_intercalate a.label.separator.toList hrow).append_self
          a.label.closing.toList)).append (Annotations.tells_suffix hannotations)
      rw [text, text, print_eq, print_eq, ← hfixed.1, ← hfixed.2, zerosAgree_iff,
        and_comm (a := List.Forall₂ _ a.annotations.notes _), ← and_assoc]
      simpa [String.toList_intercalate, Function.comp_def, text] using htext

end Node

/-- Known plans that are the same, whose NaN operands have the same signs, have
one text exactly when their zeros have the same signs.  The text that a table
keeps under the one is then the text of the other. -/
theorem text_eq_iff_zerosAgree [LawfulText] {session : Session} (hreached : session.Reached)
    {a b : Node} (ha : session.Knows a) (hb : session.Knows b) (hsame : a.same b = true)
    (hnans : a.NaNOperandsAgree b) :
    (a.text = b.text ↔ a.ZerosAgree b) ∧
      ∀ [LawfulEqual] [LawfulDigest] {T : Type} [PlanTable T String] {intact : T → Prop},
        PlanTable.Lawful intact →
        ∀ table : T, PlanTable.Filled session.Knows intact table →
          intact (PlanTable.put table a a.text) →
          (PlanTable.find? (PlanTable.put table a a.text) b = some b.text ↔
            a.ZerosAgree b) := by
  have hsound := hreached.sound
  have hnormal := hsound.normal_eq_of_same ha hb hsame
  have htext : a.text = b.text ↔ a.ZerosAgree b := by
    rw [← String.toList_inj]
    exact (Node.tells_text hnormal hnans).eq_iff
  refine ⟨htext, ?_⟩
  intro _ _ T _ intact hlawful table hfilled hintact
  have hlaws := hlawful session.Knows hsound.consistent
  rw [hlaws.find?_put table a a.text b hfilled hintact ha hb, if_pos hsame,
    Option.some_inj, htext]

end

open Text
open scoped Hints

/-- Two NaNs of both signs under minus signs, annotated in other orders and with
estimates that have other remarks.  The text that is kept under the one is found
under the other. -/
theorem text_eq_iff_zerosAgree_negations :
    ∃ (session : Session) (a b : Node), session.Reached ∧ session.Knows a ∧
      session.Knows b ∧ a.children.map (·.label) ≠ b.children.map (·.label) ∧
      a.annotations.notes ≠ b.annotations.notes ∧
      a.same b = true ∧ a.NaNOperandsAgree b ∧ a.ZerosAgree b ∧ a.text = b.text ∧
      PlanTable.find? (PlanTable.put (PlanTable.build .default : PlanEntries String) a a.text) b =
        some b.text := by
  let guess : Note := ⟨"k", .foreign (Hints.estimate 0 100 "guessed")⟩
  let count : Note := ⟨"k", .foreign (Hints.estimate 1 100 "counted")⟩
  let zero : Note := ⟨"m", .literal (.float ⟨0⟩)⟩
  let nan := (Label.constant (.float ⟨0x7ff8000000000000⟩) .float).node 0 .empty []
  let minus := (Label.unary .negate).node 1 .empty [nan]
  let minusOne := (Label.unary .negate).node 2 ⟨some 2, [("m", zero)]⟩ [nan]
  let a := (Label.unary .negate).node 3 ⟨some 3, [("k", guess), ("m", zero)]⟩ [nan]
  let nan' := (Label.constant (.float ⟨0xfff8000000000001⟩) .float).node 4 .empty []
  let minus' := (Label.unary .negate).node 5 .empty [nan']
  let minusOne' := (Label.unary .negate).node 6 ⟨some 6, [("k", count)]⟩ [nan']
  let b := (Label.unary .negate).node 7 ⟨some 7, [("k", count), ("m", zero)]⟩ [nan']
  let held : List Node := [minusOne', minus', nan', a, minusOne, minus, nan]
  let session : Session := ⟨8, b :: held⟩
  have hnan : Session.Reached ⟨1, [nan]⟩ := (Session.Reached.start 0).assemble (by simp) rfl
  have hminus : Session.Reached ⟨2, [minus, nan]⟩ := hnan.assemble (by simp) rfl
  have hminusOne : Session.Reached ⟨3, [minusOne, minus, nan]⟩ :=
    hminus.call _ (.annotate minus "m" (.literal (.float ⟨0⟩))
      (Session.knows_of_mem_held List.mem_cons_self)) rfl
  have ha : Session.Reached ⟨4, [a, minusOne, minus, nan]⟩ :=
    hminusOne.call _ (.annotate minusOne "k" (.foreign (Hints.estimate 0 100 "guessed"))
      (Session.knows_of_mem_held List.mem_cons_self)) rfl
  have hnan' : Session.Reached ⟨5, [nan', a, minusOne, minus, nan]⟩ :=
    ha.assemble (by simp) rfl
  have hminus' : Session.Reached ⟨6, [minus', nan', a, minusOne, minus, nan]⟩ :=
    hnan'.assemble (by simp) rfl
  have hminusOne' : Session.Reached ⟨7, held⟩ :=
    hminus'.call _ (.annotate minus' "k" (.foreign (Hints.estimate 1 100 "counted"))
      (Session.knows_of_mem_held List.mem_cons_self)) rfl
  have hreached : session.Reached :=
    hminusOne'.call _ (.annotate minusOne' "m" (.literal (.float ⟨0⟩))
      (Session.knows_of_mem_held List.mem_cons_self)) rfl
  have hknowsA : session.Knows a := Session.knows_of_mem_held (by simp [session, held])
  have hknowsB : session.Knows b := Session.knows_of_mem_held List.mem_cons_self
  have hsame : a.same b = true := by decide
  have hleaf : nan.NaNOperandsAgree nan' := ⟨by simp [nan, Label.minds], .nil⟩
  have hnans : a.NaNOperandsAgree b := by
    refine ⟨?_, .cons hleaf .nil⟩
    intro hminds
    cases hminds
  have hzeros : a.ZerosAgree b := by
    refine ⟨trivial, .cons trivial (.cons (fun _ _ => rfl) .nil), .cons ⟨?_, .nil, .nil⟩ .nil⟩
    intro hzero
    contradiction
  obtain ⟨htext, hkept⟩ := text_eq_iff_zerosAgree hreached hknowsA hknowsB hsame hnans
  have hempty : PlanTable.Filled session.Knows (fun _ => True)
      (PlanTable.build .default : PlanEntries String) := .build trivial
  exact ⟨session, a, b, hreached, hknowsA, hknowsB, by decide, by decide, hsame, hnans,
    hzeros, htext.mpr hzeros, (hkept PlanEntries.lawful _ hempty trivial).mpr hzeros⟩

/-- The same constant zero with both signs. -/
theorem text_ne_of_same_zeros :
    ∃ (session : Session) (a b : Node), session.Reached ∧ session.Knows a ∧
      session.Knows b ∧ a.same b = true ∧ a.text = "0.0" ∧ b.text = "-0.0" := by
  let zero := (Label.constant (.float ⟨0⟩) .float).node 0 .empty []
  let negativeZero := (Label.constant (.float ⟨0x8000000000000000⟩) .float).node 1 .empty []
  have hzero : Session.Reached ⟨1, [zero]⟩ :=
    (Session.Reached.start 0).assemble (by simp) rfl
  have hreached : Session.Reached ⟨2, [negativeZero, zero]⟩ :=
    hzero.assemble (by simp) rfl
  exact ⟨_, zero, negativeZero, hreached, Session.knows_of_mem_held (by simp),
    Session.knows_of_mem_held (by simp), by decide, by decide, by decide⟩

end QueryPlan
