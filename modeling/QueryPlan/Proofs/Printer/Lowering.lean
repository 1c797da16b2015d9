import QueryPlan.Proofs.Node.Alike
import QueryPlan.Proofs.Printer.NodeTokens

/-!
# Lowered annotations

The annotations of an operator are written behind its last operand, unless
something else ends the operation.  If that operand stands without parentheses
and has no annotations of its own, the text does not tell whose they are.

Lowering hands all such annotations down to the operands.  It changes no text,
and nothing else of a plan.
-/

namespace QueryPlan

/-- The characters of a child under a label. -/
def Label.operandChars (parent child : Label) (chars : List Char) : List Char :=
  if parent.encloses child then '(' :: (chars ++ [')']) else chars

theorem Label.toList_operandText (parent child : Label) (text : String) :
    (parent.operandText child text).toList = parent.operandChars child text.toList := by
  rw [operandText, operandChars]
  split <;> simp

/-- Whether a last child is the last that is written of a node, apart from
annotations. -/
def Label.endsOpen (parent last : Label) : Bool :=
  match parent with
  | binary _ => !parent.encloses last
  | unary op => !op.isTrailing && !parent.encloses last
  | _ => false

theorem Label.of_endsOpen {parent last : Label} (hopen : parent.endsOpen last = true) :
    parent.closing = "" ∧ parent.encloses last = false := by
  cases parent with
  | binary op => simpa [endsOpen, closing] using hopen
  | unary op =>
      obtain ⟨htrailing, hencloses⟩ :
          op.isTrailing = false ∧ (unary op).encloses last = false := by
        simpa [endsOpen] using hopen
      exact ⟨by simp [closing, htrailing], hencloses⟩
  | _ => cases hopen

variable [ForeignTypes]

namespace Node

/-- The text of a node without its own annotations. -/
def body (node : Node) : List Char :=
  node.label.opening.toList ++
    node.label.separator.toList.intercalate (node.children.map fun child =>
      node.label.operandChars child.label child.text.toList) ++
    node.label.closing.toList

/-- What a node keeps of its annotations, and its last child with what it is
given of them. -/
def hand (parent : Label) (annotations : Annotations) (last : Node) :
    Annotations × Node :=
  if parent.endsOpen last.label && last.annotations.isEmpty then
    (.empty, { last with annotations })
  else (annotations, last)

/-- The node after its annotations were handed down, if they are not told from
those of its last child. -/
def lower (node : Node) : Node :=
  match node.children.getLast? with
  | some last =>
      { node with
        annotations := (hand node.label node.annotations last).1
        children := node.children.dropLast ++
          [(hand node.label node.annotations last).2] }
  | none => node

mutual

def lowered (node : Node) : Node :=
  match node with
  | ⟨handle, label, type, annotations, children⟩ =>
      lower ⟨handle, label, type, annotations, loweredAll children⟩

def loweredAll : List Node → List Node
  | [] => []
  | node :: rest => lowered node :: loweredAll rest

end

theorem loweredAll_eq_map (nodes : List Node) : loweredAll nodes = nodes.map lowered := by
  induction nodes with
  | nil => rfl
  | cons node rest ih => rw [loweredAll, ih, List.map_cons]

theorem lowered_eq (node : Node) :
    node.lowered = lower { node with children := node.children.map lowered } := by
  cases node
  rw [lowered, loweredAll_eq_map]

@[simp] theorem lower_label (node : Node) : node.lower.label = node.label := by
  unfold lower
  split <;> rfl

@[simp] theorem lowered_label (node : Node) : node.lowered.label = node.label := by
  rw [lowered_eq, lower_label]

theorem lowered_concat {node : Node} {init : List Node} {last : Node}
    (hchildren : node.children = init ++ [last]) :
    node.lowered =
      { node with
        annotations := (hand node.label node.annotations last.lowered).1
        children := init.map lowered ++
          [(hand node.label node.annotations last.lowered).2] } := by
  rw [lowered_eq, hchildren, lower]
  simp

/-! ## Texts of lowered plans -/

theorem toList_text (node : Node) :
    node.text.toList = node.body ++ (node.annotations.suffix .default).toList := by
  have hprint : node.text = node.label.opening ++
      node.label.separator.intercalate (node.children.map fun child =>
        node.label.operandText child.label child.text) ++
      node.label.closing ++ node.annotations.suffix .default := node.print_eq .default
  rw [hprint]
  simp only [String.toList_append, String.toList_intercalate, List.map_map,
    Function.comp_def, Label.toList_operandText, body]

theorem body_of_annotations (node : Node) (annotations : Annotations) :
    body { node with annotations } = node.body := rfl

theorem body_concat {node : Node} {init : List Node} {last : Node}
    (hchildren : node.children = init ++ [last]) :
    node.body = node.label.opening.toList ++
      (init.flatMap (fun child => node.label.operandChars child.label child.text.toList ++
        node.label.separator.toList) ++
      (node.label.operandChars last.label last.text.toList ++
        node.label.closing.toList)) := by
  rw [body, hchildren, List.map_append, List.map_singleton, Text.intercalate_concat,
    List.flatMap_map]
  simp only [List.append_assoc]

theorem text_lower (node : Node) : node.lower.text = node.text := by
  unfold lower
  split
  · rename_i last hlast
    have hchildren := List.dropLast_append_getLast? last hlast
    unfold hand
    split
    · rename_i hboth
      obtain ⟨hopen, hempty⟩ := (Bool.and_eq_true _ _).mp hboth
      let given : Node := { last with annotations := node.annotations }
      let handed : Node := { node with
        annotations := .empty
        children := node.children.dropLast ++ [given] }
      have hgiven : given.text.toList =
          last.text.toList ++ (node.annotations.suffix .default).toList := by
        rw [toList_text, toList_text last, body_of_annotations]
        simp [given, Annotations.suffix, hempty]
      have hbody : handed.body = node.body ++ (node.annotations.suffix .default).toList := by
        have hhanded : handed.children = node.children.dropLast ++ [given] := rfl
        obtain ⟨hclosing, hencloses⟩ := Label.of_endsOpen hopen
        rw [body_concat hhanded, body_concat hchildren.symm]
        simp [handed, hclosing, Label.operandChars, hencloses, show given.label = last.label
          from rfl, hgiven]
      change handed.text = node.text
      rw [← String.toList_inj, toList_text, toList_text node, hbody]
      simp [handed, Annotations.suffix, Annotations.empty, Annotations.isEmpty,
        Annotations.size]
    · rw [hchildren]
      cases node
      rfl
  · rfl

theorem text_lowered (node : Node) : node.lowered.text = node.text := by
  induction node using Node.inductionOn with
  | step node ih =>
      have hbody : body { node with children := node.children.map lowered } = node.body := by
        simp only [body, List.map_map]
        congr 3
        apply List.map_congr_left
        intro child hchild
        simp [ih child hchild]
      rw [lowered_eq, text_lower, ← String.toList_inj, toList_text, toList_text, hbody]

end Node

end QueryPlan
