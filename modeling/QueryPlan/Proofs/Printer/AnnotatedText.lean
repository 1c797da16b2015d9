import QueryPlan.Proofs.Printer.Expressions
import QueryPlan.Proofs.Printer.Lowering
import QueryPlan.Proofs.Printer.Suffixes

/-!
# Reading annotations back

Take two expressions that are equal when all annotations are removed, and whose
annotations are integers.  If they have one text, then they are equal once their
annotations are lowered: the text tells whose each set of annotations is, except
at an operator and a last operand without parentheses, of which only one is
annotated.

The texts are read from left to right beside each other.  What is left to read
behind an expression never goes on with annotations, so annotations are read to
their end; only behind a last operand come those of the operator.
-/

namespace QueryPlan

open Text

/-! ## Operators -/

/-- Binary operators, and unary ones that are written before their operand. -/
def Label.isLeading : Label → Bool
  | binary _ => true
  | unary op => !op.isTrailing
  | _ => false

theorem Label.endsOpen_of_not_isLeading {parent : Label}
    (hparent : parent.isLeading = false) (last : Label) : parent.endsOpen last = false := by
  cases parent <;> simp_all [isLeading, endsOpen]

theorem Label.Alike.isLeading_eq {a b : Label} (halike : a.Alike b) :
    a.isLeading = b.isLeading := by
  cases a <;> cases b <;> simp_all [Alike, isLeading]

/-- Only constants are alike and not equal. -/
theorem Label.Alike.eq_of_arity {a b : Label} (halike : a.Alike b) (harity : a.arity ≠ 0) :
    a = b := by
  cases a <;> first | exact halike | exact absurd rfl harity

theorem Label.arity_of_isLeading {label : Label} (hleading : label.isLeading = true) :
    label.arity ≠ 0 := by
  cases label <;> simp_all [isLeading, arity]

theorem Label.closing_of_isLeading {label : Label} (hleading : label.isLeading = true) :
    label.closing = "" := by
  cases label <;> simp_all [isLeading, closing]

theorem Label.stops_closing {label : Label} (hscalar : label.category = .scalar)
    (hleading : label.isLeading = false) (harity : label.arity ≠ 0) (back : List Char) :
    Stops (label.closing.toList ++ back) := by
  intro back' heq
  cases label with
  | joinOn form => cases form <;> cases hscalar
  | join form => cases form <;> cases hscalar
  | unary op => cases op <;> simp_all [isLeading, closing, UnaryOperator.isTrailing,
      UnaryOperator.symbol]
  | binary op => cases hleading
  | call signature type => simp [closing] at heq
  | _ => exact harity rfl

theorem Label.stops_separator {label : Label} (hscalar : label.category = .scalar)
    (harity : 1 < label.arity) (back : List Char) :
    Stops (label.separator.toList ++ back) := by
  intro back' heq
  cases label with
  | joinOn form => cases form <;> cases hscalar
  | binary op => cases op <;> simp [separator, BinaryOperator.symbol] at heq
  | call signature type => simp [separator] at heq
  | _ => simp [arity] at harity

theorem Label.isLeading_of_not_encloses {parent child : Label}
    (hparent : parent.isLeading = true) (hencloses : parent.encloses child = false) :
    child.isLeading = false := by
  cases parent <;> cases child <;> simp_all [isLeading, encloses, isCompound]

theorem Label.endsOpen_of_isLeading {parent : Label} (hparent : parent.isLeading = true)
    (last : Label) : parent.endsOpen last = !parent.encloses last := by
  cases parent <;> simp_all [isLeading, endsOpen]

variable [ForeignTypes]

/-! ## Plans without annotations -/

namespace Node

mutual

/-- A plan with all annotations removed. -/
def stripped (node : Node) : Node :=
  match node with
  | ⟨handle, label, type, _, children⟩ =>
      ⟨handle, label, type, .empty, strippedAll children⟩

def strippedAll : List Node → List Node
  | [] => []
  | node :: rest => stripped node :: strippedAll rest

end

theorem strippedAll_eq_map (nodes : List Node) :
    strippedAll nodes = nodes.map stripped := by
  induction nodes with
  | nil => rfl
  | cons node rest ih => rw [strippedAll, ih, List.map_cons]

theorem stripped_alike_iff (a b : Node) :
    a.stripped.Alike b.stripped ↔ a.label.Alike b.label ∧
      List.Forall₂ (fun x y => x.stripped.Alike y.stripped) a.children b.children := by
  have hstripped : ∀ node : Node, node.stripped =
      { node with annotations := .empty, children := node.children.map stripped } := by
    intro node
    cases node
    rw [stripped, strippedAll_eq_map]
  rw [alike_iff, hstripped, hstripped, List.forall₂_map_left_iff,
    List.forall₂_map_right_iff]
  have hempty : Annotations.empty.Alike .empty := fun _ => .none
  simp [hempty]

/-- All annotations in the plan are integers under plain names. -/
def Integers (node : Node) : Prop :=
  ∀ part ∈ node.preorder, ∀ note ∈ part.annotations.notes, note.Plain

theorem integers_iff {node : Node} :
    node.Integers ↔ (∀ note ∈ node.annotations.notes, note.Plain) ∧
      ∀ child ∈ node.children, child.Integers :=
  forall_mem_preorder_iff

end Node

/-! ## Reading beside each other -/

theorem Annotations.isEmpty_iff (annotations : Annotations) :
    annotations.isEmpty = true ↔ annotations.notes = [] := by
  simp [isEmpty, size, notes]

theorem Annotations.WellFormed.alike_of_notes_eq {a b : Annotations} (ha : a.WellFormed)
    (hb : b.WellFormed) (hplain : ∀ note ∈ a.notes, note.Plain) (hnotes : a.notes = b.notes) :
    a.Alike b := by
  rw [ha.alike_iff hb fun note hnote => (hplain note hnote).lawful, ha.normal_eq_iff hb, hnotes]

namespace Node

/-- If the texts agree in front of what does not go on with annotations, then the
plans are alike once lowered, and the rests agree. -/
def Decodes (a b : Node) : Prop :=
  ∀ rest rest', Stops rest → Stops rest' →
    a.text.toList ++ rest = b.text.toList ++ rest' →
    a.lowered.Alike b.lowered ∧ rest = rest'

/-- The same of texts without the own annotations, in front of any rests. -/
def BodyDecodes (a b : Node) : Prop :=
  ∀ rest rest', a.body ++ rest = b.body ++ rest' →
    List.Forall₂ (fun x y => x.lowered.Alike y.lowered) a.children b.children ∧
      rest = rest'

theorem toList_text_eq (node : Node) :
    node.text.toList = node.body ++ marks node.annotations.notes := by
  rw [toList_text, toList_suffix]

theorem lower_of_not_isLeading {node : Node} (hlabel : node.label.isLeading = false) :
    node.lower = node := by
  unfold lower
  split
  · rename_i last hlast
    simp only [hand, Label.endsOpen_of_not_isLeading hlabel, Bool.false_and,
      Bool.false_eq_true, if_false, List.dropLast_append_getLast? last hlast]
    cases node
    rfl
  · rfl

theorem lowered_of_not_isLeading {node : Node} (hlabel : node.label.isLeading = false) :
    node.lowered = { node with children := node.children.map lowered } := by
  rw [lowered_eq, lower_of_not_isLeading]
  exact hlabel

theorem lowered_annotations {node : Node} (hlabel : node.label.isLeading = false) :
    node.lowered.annotations = node.annotations := by
  rw [lowered_of_not_isLeading hlabel]

theorem lowered_children {node : Node} (hlabel : node.label.isLeading = false) :
    node.lowered.children = node.children.map lowered := by
  rw [lowered_of_not_isLeading hlabel]

/-! ### The last operand -/

section Hand

variable {parent : Label} {own : Annotations} {last : Node}

theorem hand_label : (hand parent own last).2.label = last.label := by
  unfold hand
  split <;> rfl

theorem hand_children : (hand parent own last).2.children = last.children := by
  unfold hand
  split <;> rfl

theorem hand_of_not_endsOpen (hclosed : parent.endsOpen last.label = false) :
    hand parent own last = (own, last) := by
  simp [hand, hclosed]

theorem notes_hand (own : Annotations) (hopen : parent.endsOpen last.label = true) :
    (hand parent own last).1.notes =
        (if last.annotations.notes = [] then [] else own.notes) ∧
      (hand parent own last).2.annotations.notes =
        if last.annotations.notes = [] then own.notes else last.annotations.notes := by
  unfold hand
  by_cases hempty : last.annotations.notes = []
  · have hempty' := (last.annotations.isEmpty_iff).mpr hempty
    rw [if_pos hempty, if_pos hempty, if_pos (by simp [hopen, hempty'])]
    exact ⟨rfl, rfl⟩
  · have hempty' := mt (last.annotations.isEmpty_iff).mp hempty
    simp [hempty, hempty']

/-- What holds of both sets, and of the empty one, still holds after handing down. -/
theorem hand_of {p : Annotations → Prop} (hempty : p .empty) (parent : Label) (hown : p own)
    (hlast : p last.annotations) :
    p (hand parent own last).1 ∧ p (hand parent own last).2.annotations := by
  unfold hand
  split
  · exact ⟨hempty, hown⟩
  · exact ⟨hown, hlast⟩

theorem wellFormed_hand (parent : Label) {own : Annotations} {last : Node}
    (hown : own.WellFormed) (hlast : last.annotations.WellFormed) :
    (hand parent own last).1.WellFormed ∧
      (hand parent own last).2.annotations.WellFormed :=
  hand_of Annotations.wellFormed_empty parent hown hlast

theorem plain_hand (parent : Label) {own : Annotations} {last : Node}
    (hown : ∀ note ∈ own.notes, note.Plain) (hlast : ∀ note ∈ last.annotations.notes, note.Plain) :
    (∀ note ∈ (hand parent own last).1.notes, note.Plain) ∧
      ∀ note ∈ (hand parent own last).2.annotations.notes, note.Plain :=
  hand_of (p := fun set => ∀ note ∈ set.notes, note.Plain)
    (by simp [Annotations.notes, Annotations.empty]) parent hown hlast

end Hand

/-- Constants of other signs do not hide that one of them stands in parentheses. -/
theorem encloses_eq_of_operandChars_eq {parent : Label} {x y : Node}
    (hlabel : x.label.Alike y.label) {rest rest' : List Char}
    (heq : parent.operandChars x.label x.text.toList ++ rest =
      parent.operandChars y.label y.text.toList ++ rest') :
    parent.encloses x.label = parent.encloses y.label := by
  have hnormal := (Label.alike_iff_normal_eq _ _).mp hlabel
  rcases Label.encloses_eq rfl hnormal with hsame | ⟨hminds, u, v, type, hx, hy, -, hsign⟩
  · exact hsame
  · rw [← Label.toList_operandText, ← Label.toList_operandText] at heq
    exact absurd heq ((diverge_operandText hminds hminds hx hy hsign).append _ _).ne

/-- What is needed of two operands at the same place. -/
structure Comparable (x y : Node) : Prop where
  label : x.label.Alike y.label
  decodes : x.Decodes y
  bodyDecodes : x.label.isLeading = false → x.BodyDecodes y

/-- An operand in parentheses ends with them, so that anything may follow it. -/
theorem Comparable.operandChars {parent : Label} {x y : Node} (hcomparable : x.Comparable y)
    {rest rest' : List Char} (hrest : parent.encloses x.label = false → Stops rest)
    (hrest' : parent.encloses y.label = false → Stops rest')
    (heq : parent.operandChars x.label x.text.toList ++ rest =
      parent.operandChars y.label y.text.toList ++ rest') :
    x.lowered.Alike y.lowered ∧ rest = rest' := by
  have hencloses := encloses_eq_of_operandChars_eq hcomparable.label heq
  cases hparentheses : parent.encloses y.label with
  | true =>
      have hstops : ∀ back, Stops (')' :: back) := by
        intro back back' heq
        cases heq
      simp only [Label.operandChars, hencloses, hparentheses, if_true, List.cons_append,
        List.append_assoc, List.cons.injEq, true_and, List.nil_append] at heq
      obtain ⟨halike, hback⟩ := hcomparable.decodes _ _ (hstops _) (hstops _) heq
      exact ⟨halike, (List.cons.inj hback).2⟩
  | false =>
      rw [hparentheses] at hencloses
      simp only [Label.operandChars, hencloses, hparentheses, Bool.false_eq_true,
        if_false] at heq
      exact hcomparable.decodes _ _ (hrest hencloses) (hrest' hparentheses) heq

/-- A last operand and its operator, after the annotations were handed down. -/
theorem Comparable.hand {parent : Label} (hparent : parent.isLeading = true) {x y : Node}
    (hcomparable : x.Comparable y) {own own' : Annotations} (hown : own.WellFormed)
    (hown' : own'.WellFormed) (hx : x.annotations.WellFormed)
    (hy : y.annotations.WellFormed)
    (hplain : ∀ note ∈ x.annotations.notes ++ own.notes, note.Plain)
    (hplain' : ∀ note ∈ y.annotations.notes ++ own'.notes, note.Plain)
    {rest rest' : List Char} (hrest : Stops rest) (hrest' : Stops rest')
    (heq : parent.operandChars x.label x.text.toList ++ (marks own.notes ++ rest) =
      parent.operandChars y.label y.text.toList ++ (marks own'.notes ++ rest')) :
    (Node.hand parent own x.lowered).1.Alike (Node.hand parent own' y.lowered).1 ∧
      (Node.hand parent own x.lowered).2.Alike (Node.hand parent own' y.lowered).2 ∧
      rest = rest' := by
  have hencloses := encloses_eq_of_operandChars_eq hcomparable.label heq
  have hopen : ∀ z : Node, parent.endsOpen z.lowered.label = !parent.encloses z.label := by
    intro z
    rw [lowered_label, Label.endsOpen_of_isLeading hparent]
  cases hparentheses : parent.encloses y.label with
  | true =>
      rw [hparentheses] at hencloses
      obtain ⟨halike, hback⟩ := hcomparable.operandChars (by simp [hencloses])
        (by simp [hparentheses]) heq
      have hplainOwn : ∀ note ∈ own.notes, note.Plain :=
        fun note hnote => hplain note (List.mem_append_right _ hnote)
      obtain ⟨hnotes, hrests⟩ := marks_append_unique hplainOwn
        (fun note hnote => hplain' note (List.mem_append_right _ hnote)) hrest hrest' hback
      rw [hand_of_not_endsOpen (by rw [hopen, hencloses]; rfl),
        hand_of_not_endsOpen (by rw [hopen, hparentheses]; rfl)]
      exact ⟨hown.alike_of_notes_eq hown' hplainOwn hnotes, halike, hrests⟩
  | false =>
      rw [hparentheses] at hencloses
      -- Without parentheses the operand is no operation that may hand annotations
      -- down itself, so two sets at most stand behind it.
      have hleading := Label.isLeading_of_not_encloses hparent hencloses
      have hleading' := Label.isLeading_of_not_encloses hparent hparentheses
      simp only [Label.operandChars, hencloses, hparentheses, Bool.false_eq_true, if_false,
        toList_text_eq, List.append_assoc] at heq
      obtain ⟨hchildren, hmarks⟩ := hcomparable.bodyDecodes hleading _ _ heq
      obtain ⟨howns, hgivens, hrests⟩ := trail_unique hplain hplain' hrest hrest' hmarks
      rw [← lowered_annotations hleading] at hx howns hgivens hplain
      rw [← lowered_annotations hleading'] at hy howns hgivens
      obtain ⟨hplainX, hplainOwn⟩ := List.forall_mem_append.mp hplain
      obtain ⟨hkept, hgiven⟩ := notes_hand own ((hopen x).trans (by rw [hencloses]; rfl))
      obtain ⟨hkept', hgiven'⟩ :=
        notes_hand own' ((hopen y).trans (by rw [hparentheses]; rfl))
      obtain ⟨hwellKept, hwellGiven⟩ := wellFormed_hand parent hown hx
      obtain ⟨hwellKept', hwellGiven'⟩ := wellFormed_hand parent hown' hy
      obtain ⟨hplainKept, hplainGiven⟩ := plain_hand parent hplainOwn hplainX
      refine ⟨hwellKept.alike_of_notes_eq hwellKept' hplainKept (by rw [hkept, hkept', howns]),
        (alike_iff _ _).mpr ⟨?_, hwellGiven.alike_of_notes_eq hwellGiven' hplainGiven
          (by rw [hgiven, hgiven', hgivens]), ?_⟩, hrests⟩
      · rw [hand_label, hand_label, lowered_label, lowered_label]
        exact hcomparable.label
      · rw [hand_children, hand_children, lowered_children hleading,
          lowered_children hleading', List.forall₂_map_left_iff, List.forall₂_map_right_iff]
        exact hchildren

/-! ### Rows of operands -/

/-- All operands but the last, each with the separator behind it. -/
theorem initial_unique {parent : Label} {separator : List Char} {xs ys : List Node}
    (hcomparable : List.Forall₂ Comparable xs ys)
    (hseparator : xs ≠ [] → ∀ back, Stops (separator ++ back)) {rest rest' : List Char}
    (heq : xs.flatMap (fun x => parent.operandChars x.label x.text.toList ++ separator) ++
        rest =
      ys.flatMap (fun y => parent.operandChars y.label y.text.toList ++ separator) ++
        rest') :
    List.Forall₂ (fun x y => x.lowered.Alike y.lowered) xs ys ∧ rest = rest' := by
  induction hcomparable with
  | nil => exact ⟨.nil, heq⟩
  | cons hfirst _ ih =>
      have hstops := hseparator (List.cons_ne_nil _ _)
      simp only [List.flatMap_cons, List.append_assoc] at heq
      obtain ⟨halike, hback⟩ :=
        hfirst.operandChars (fun _ => hstops _) (fun _ => hstops _) heq
      obtain ⟨hrow, hrests⟩ := ih (fun _ => hstops) (List.append_cancel_left hback)
      exact ⟨.cons halike hrow, hrests⟩

theorem stops_separator {node : Node} (hscalar : node.category = .scalar)
    (harity : node.children.length = node.label.arity) {init : List Node} {last : Node}
    (hchildren : node.children = init ++ [last]) (hne : init ≠ []) (back : List Char) :
    Stops (node.label.separator.toList ++ back) := by
  apply Label.stops_separator hscalar
  have hpos := List.length_pos_iff.mpr hne
  rw [← harity, hchildren, List.length_append, List.length_singleton]
  omega

theorem exists_concat_of_forall₂ {related : Node → Node → Prop} {xs ys : List Node}
    (hrelated : List.Forall₂ related xs ys) (hne : xs ≠ []) :
    ∃ init x init' y, xs = init ++ [x] ∧ ys = init' ++ [y] ∧
      List.Forall₂ related init init' ∧ related x y := by
  induction hrelated with
  | nil => contradiction
  | @cons x y xs ys hfirst hrest ih =>
      cases hrest with
      | nil => exact ⟨[], x, [], y, rfl, rfl, .nil, hfirst⟩
      | cons =>
          obtain ⟨init, last, init', last', hxs, hys, hinit, hlast⟩ := ih (by simp)
          exact ⟨x :: init, last, y :: init', last', by rw [hxs]; rfl, by rw [hys]; rfl,
            .cons hfirst hinit, hlast⟩

theorem opening_eq_of_body_eq {a b : Node} (hlabel : a.label.Alike b.label)
    {rest rest' : List Char} (heq : a.body ++ rest = b.body ++ rest') :
    a.label.opening = b.label.opening := by
  rcases Label.tells_opening ((Label.alike_iff_normal_eq _ _).mp hlabel) with
    ⟨-, hopening⟩ | ⟨-, hdiverge⟩
  · exact String.toList_inj.mp hopening
  · rw [body, body, List.append_assoc, List.append_assoc, List.append_assoc,
      List.append_assoc] at heq
    exact absurd heq (hdiverge.append _ _).ne

/-- A node that is neither a binary operator nor written before its operand ends
where its label says. -/
theorem bodyDecodes {a b : Node} (hscalar : a.category = .scalar)
    (harity : a.children.length = a.label.arity) (hlabel : a.label.Alike b.label)
    (hleading : a.label.isLeading = false)
    (hchildren : List.Forall₂ Comparable a.children b.children) : a.BodyDecodes b := by
  intro rest rest' heq
  have hopening := opening_eq_of_body_eq hlabel heq
  obtain ⟨-, hclosing⟩ :=
    Label.separator_closing_eq ((Label.alike_iff_normal_eq _ _).mp hlabel)
  by_cases hnil : a.children = []
  -- A leaf has nothing behind its opening, which may be a constant; only there
  -- the two labels may differ.
  · have hnil' : b.children = [] := by
      rw [hnil] at hchildren
      exact List.forall₂_nil_left_iff.mp hchildren
    rw [hnil, hnil']
    simp only [body, hnil, hnil', hopening, hclosing] at heq
    exact ⟨.nil, List.append_cancel_left heq⟩
  · have harity' : a.label.arity ≠ 0 := by
      rwa [← harity, Ne, List.length_eq_zero_iff]
    have hlabels : a.label = b.label := hlabel.eq_of_arity harity'
    obtain ⟨init, x, init', y, hinitA, hinitB, hinit, hlast⟩ :=
      exists_concat_of_forall₂ hchildren hnil
    have hstops := Label.stops_closing hscalar hleading harity'
    rw [body_concat hinitA, body_concat hinitB, ← hlabels] at heq
    simp only [List.append_assoc] at heq
    obtain ⟨halikes, hback⟩ := initial_unique hinit
      (stops_separator hscalar harity hinitA) (List.append_cancel_left heq)
    obtain ⟨halike, hback⟩ :=
      hlast.operandChars (fun _ => hstops _) (fun _ => hstops _) hback
    rw [hinitA, hinitB]
    exact ⟨List.rel_append halikes (.cons halike .nil), List.append_cancel_left hback⟩

/-- The annotations behind such a node are its own. -/
theorem decodes_of_not_isLeading {a b : Node} (hlabel : a.label.Alike b.label)
    (hleading : a.label.isLeading = false) (hbody : a.BodyDecodes b)
    (hwell : a.annotations.WellFormed) (hwell' : b.annotations.WellFormed)
    (hplain : ∀ note ∈ a.annotations.notes, note.Plain)
    (hplain' : ∀ note ∈ b.annotations.notes, note.Plain) : a.Decodes b := by
  intro rest rest' hrest hrest' heq
  have hleading' : b.label.isLeading = false := by
    rw [← hlabel.isLeading_eq]
    exact hleading
  rw [toList_text_eq, toList_text_eq, List.append_assoc, List.append_assoc] at heq
  obtain ⟨hchildren, hback⟩ := hbody _ _ heq
  obtain ⟨hnotes, hrests⟩ := marks_append_unique hplain hplain' hrest hrest' hback
  refine ⟨?_, hrests⟩
  rw [lowered_of_not_isLeading hleading, lowered_of_not_isLeading hleading', alike_iff,
    List.forall₂_map_left_iff, List.forall₂_map_right_iff]
  exact ⟨hlabel, hwell.alike_of_notes_eq hwell' hplain hnotes, hchildren⟩

/-- The annotations behind a binary operation or behind an operator that stands
before its operand may be those of the last operand. -/
theorem decodes_of_isLeading {a b : Node} (hscalar : a.category = .scalar)
    (ha : a.WellFormed) (hb : b.WellFormed) (hlabel : a.label.Alike b.label)
    (hleading : a.label.isLeading = true)
    (hchildren : List.Forall₂ Comparable a.children b.children)
    (hwell : ∀ child ∈ a.children, child.annotations.WellFormed)
    (hwell' : ∀ child ∈ b.children, child.annotations.WellFormed)
    (hplain : a.Integers) (hplain' : b.Integers) : a.Decodes b := by
  intro rest rest' hrest hrest' heq
  have hlabels : a.label = b.label := hlabel.eq_of_arity (Label.arity_of_isLeading hleading)
  have hnil : a.children ≠ [] := by
    rw [← List.length_pos_iff, ha.arity]
    exact Nat.pos_of_ne_zero (Label.arity_of_isLeading hleading)
  obtain ⟨init, x, init', y, hinitA, hinitB, hinit, hlast⟩ :=
    exists_concat_of_forall₂ hchildren hnil
  have hmemX : x ∈ a.children := by simp [hinitA]
  have hmemY : y ∈ b.children := by simp [hinitB]
  have hoperand := fun note hnote =>
    (integers_iff.mp ((integers_iff.mp hplain).2 x hmemX)).1 note hnote
  have hoperand' := fun note hnote =>
    (integers_iff.mp ((integers_iff.mp hplain').2 y hmemY)).1 note hnote
  rw [toList_text_eq, toList_text_eq, body_concat hinitA, body_concat hinitB, ← hlabels,
    Label.closing_of_isLeading hleading] at heq
  simp only [List.append_assoc, String.toList_empty, List.nil_append] at heq
  obtain ⟨halikes, hback⟩ := initial_unique hinit
    (stops_separator hscalar ha.arity hinitA) (List.append_cancel_left heq)
  obtain ⟨hown, hgiven, hrests⟩ := hlast.hand hleading ha.annotations hb.annotations
    (hwell x hmemX) (hwell' y hmemY)
    (List.forall_mem_append.mpr ⟨hoperand, (integers_iff.mp hplain).1⟩)
    (List.forall_mem_append.mpr ⟨hoperand', (integers_iff.mp hplain').1⟩)
    hrest hrest' hback
  refine ⟨?_, hrests⟩
  rw [lowered_concat hinitA, lowered_concat hinitB, ← hlabels, alike_iff]
  refine ⟨by simpa only [hlabels] using hlabel, hown,
    List.rel_append ?_ (.cons hgiven .nil)⟩
  rwa [List.forall₂_map_left_iff, List.forall₂_map_right_iff]

/-- Expressions that are alike without annotations, with integers for annotations,
are comparable at every place. -/
theorem comparable {a b : Node} (ha : a.Whole) (hb : b.Whole)
    (hscalar : a.category = .scalar) (hplain : a.Integers) (hplain' : b.Integers)
    (halike : a.stripped.Alike b.stripped) : a.Comparable b := by
  induction a using Node.inductionOn generalizing b with
  | step a ih =>
      obtain ⟨hwellA, hpartsA⟩ := whole_iff.mp ha
      obtain ⟨hwellB, hpartsB⟩ := whole_iff.mp hb
      obtain ⟨hnotesA, hintegersA⟩ := integers_iff.mp hplain
      obtain ⟨hnotesB, hintegersB⟩ := integers_iff.mp hplain'
      obtain ⟨hlabel, hstripped⟩ := (stripped_alike_iff a b).mp halike
      have hchildren : List.Forall₂ Comparable a.children b.children := by
        obtain ⟨hlength, halikes⟩ := List.forall₂_iff_get.mp hstripped
        refine List.forall₂_iff_get.mpr ⟨hlength, fun place hplace hplace' => ?_⟩
        have hmem := List.get_mem a.children ⟨place, hplace⟩
        have hmem' := List.get_mem b.children ⟨place, hplace'⟩
        have hcategory := (hwellA.categories place _
          (List.getElem?_eq_getElem hplace)).trans (Label.slotCategory_of_scalar hscalar _)
        exact ih _ hmem (hpartsA _ hmem) (hpartsB _ hmem') hcategory
          (hintegersA _ hmem) (hintegersB _ hmem') (halikes place hplace hplace')
      refine ⟨hlabel, ?_, fun hleading =>
        bodyDecodes hscalar hwellA.arity hlabel hleading hchildren⟩
      cases hleading : a.label.isLeading with
      | false =>
          exact decodes_of_not_isLeading hlabel hleading
            (bodyDecodes hscalar hwellA.arity hlabel hleading hchildren)
            hwellA.annotations hwellB.annotations hnotesA hnotesB
      | true =>
          exact decodes_of_isLeading hscalar hwellA hwellB hlabel hleading hchildren
            (fun child hchild => (whole_iff.mp (hpartsA child hchild)).1.annotations)
            (fun child hchild => (whole_iff.mp (hpartsB child hchild)).1.annotations)
            hplain hplain'

end Node

end QueryPlan
