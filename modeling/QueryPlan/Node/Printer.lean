import QueryPlan.Node.Basic

/-!
# Printed plans

A plan as one line of text for diagnosis.  A label opens the text, parts the
texts of the children and closes it; annotations follow.  Operands that are
operations or negative numbers stand in parentheses, and so does a constant
under a minus sign, so that the text of an expression shows its structure.
-/

namespace QueryPlan

variable [ForeignTypes]

/-- Whether annotations are printed. -/
structure PrintSettings where
  showAnnotations : Bool
  deriving DecidableEq

def PrintSettings.default : PrintSettings := ⟨true⟩

namespace Label

def qualified (qualifier : Option String) (name : String) : String :=
  match qualifier with
  | some qualifier => qualifier ++ "." ++ name
  | none => name

/-- The text before the first child. -/
def opening : Label → String
  | table name schema aliasName =>
      qualified schema name ++
        match aliasName with
        | some aliasName => " AS " ++ aliasName
        | none => ""
  | join .cross => "CROSS JOIN "
  | join .crossApply => "CROSS APPLY "
  | join .outerApply => "OUTER APPLY "
  | joinOn .inner => "INNER JOIN "
  | joinOn .left => "LEFT JOIN "
  | column qualifier name _ => qualified qualifier name
  | constant value _ => value.text
  | parameter name _ => "@" ++ name
  | binary _ => ""
  | unary op => if op.isTrailing then "" else op.symbol
  | call signature _ => signature.qualifiedName ++ "("

/-- The text between two children. -/
def separator : Label → String
  | joinOn _ => " ON "
  | binary op => " " ++ op.symbol ++ " "
  | call .. => ", "
  | _ => ""

/-- The text after the last child. -/
def closing : Label → String
  | unary op => if op.isTrailing then op.symbol else ""
  | call .. => ")"
  | _ => ""

def isConstant : Label → Bool
  | constant .. => true
  | _ => false

/-- Whether an operand with this label needs parentheses under any operator. -/
def isCompound : Label → Bool
  | binary _ | unary _ => true
  | constant value _ => value.isNegative
  | _ => false

/-- Whether a child stands in parentheses. -/
def encloses (parent child : Label) : Bool :=
  match parent with
  | binary _ => child.isCompound
  | unary op => child.isCompound || (op == .negate && child.isConstant)
  | _ => false

end Label

/-- The annotations of a node, if there are any to show. -/
def Annotations.suffix (settings : PrintSettings) (annotations : Annotations) :
    String :=
  if settings.showAnnotations && !annotations.isEmpty then
    " " ++ annotations.text
  else ""

namespace Node

mutual

def print (settings : PrintSettings) (node : Node) : String :=
  match node with
  | ⟨_, label, _, annotations, children⟩ =>
      label.opening
        ++ label.separator.intercalate (printAll settings label children)
        ++ label.closing
        ++ annotations.suffix settings

/-- The texts of the children of a node with the label `parent`. -/
def printAll (settings : PrintSettings) (parent : Label) :
    List Node → List String
  | [] => []
  | child :: rest =>
      (if parent.encloses child.label then
          "(" ++ print settings child ++ ")"
        else print settings child)
        :: printAll settings parent rest

end

/-- The text of a plan with its annotations. -/
def text (node : Node) : String :=
  node.print .default

end Node

end QueryPlan
