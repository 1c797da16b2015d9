import QueryPlan.Node.Basic
import QueryPlan.Node.Store

/-!
# Building and rebuilding nodes

Every node is made by `Node.assemble`, which checks the children against the
label and takes the type from them, or is a copy of such a node that differs in
what no check depends on.

Rebuilding keeps a node whose children stay the same nodes.  This is decided by
handles, before the parts are checked again.
-/

namespace QueryPlan

variable [ForeignTypes]

namespace Node

/-- A node that has to stand below a node of kind `parent`, at a place for
nodes of the given category. -/
def expect (node : Node) (parent : Kind) (category : Category) :
    Except NodeError Node :=
  if node.category = category then .ok node
  else .error (.wrongCategory parent category node.kind)

end Node

namespace Label

/-- Checks the categories of children from the place `place` on. -/
def checkCategories (label : Label) : Nat → List Node → Except NodeError Unit
  | _, [] => .ok ()
  | place, child :: rest => do
      let _ ← child.expect label.kind (label.slotCategory place)
      label.checkCategories (place + 1) rest

def checkCount (label : Label) (children : List Node) : Except NodeError Unit :=
  if children.length = label.arity then .ok ()
  else .error (.childCount label.kind label.arity children.length)

/-- A join on a predicate needs one that may be a truth value. -/
def checkPredicate (label : Label) (children : List Node) :
    Except NodeError Unit :=
  match label, children with
  | joinOn _, [_, predicate] =>
      if predicate.type.isBooleanCompatible then .ok ()
      else .error (.nonBooleanPredicate label.kind predicate.type)
  | _, _ => .ok ()

/-- The node of a label over children, under a given handle. -/
def node (label : Label) (handle : Handle) (annotations : Annotations)
    (children : List Node) : Node where
  handle
  label
  type := label.typeOf (children.map (·.type))
  annotations
  children

end Label

namespace Node

/-- A new node over children of the right categories. -/
def compose (label : Label) (annotations : Annotations) (children : List Node) :
    Build Node := do
  Attempt.ofExcept (label.checkCount children)
  Attempt.ofExcept (label.checkPredicate children)
  return label.node (← fresh) annotations children

/-- A new node without annotations. -/
def assemble (label : Label) (children : List Node) : Build Node := do
  Attempt.ofExcept (label.checkCategories 0 children)
  compose label .empty children

def table (name : String) (schema aliasName : Option String) : Build Node :=
  assemble (.table name schema aliasName) []

def join (form : JoinForm) (table : Node) : Build Node :=
  assemble (.join form) [table]

def joinOn (form : PredicateJoinForm) (table predicate : Node) : Build Node :=
  assemble (.joinOn form) [table, predicate]

def column (qualifier : Option String) (name : String) (type : DataType) :
    Build Node :=
  assemble (.column qualifier name type) []

/-- A constant of the type that its value has. -/
def constant (value : Literal) : Build Node :=
  assemble (.constant value value.dataType) []

/-- A constant of a declared type. -/
def typedConstant (value : Literal) (type : DataType) : Build Node :=
  assemble (.constant value type) []

def parameter (name : String) (type : DataType) : Build Node :=
  assemble (.parameter name type) []

def binary (op : BinaryOperator) (left right : Node) : Build Node :=
  assemble (.binary op) [left, right]

def unary (op : UnaryOperator) (operand : Node) : Build Node :=
  assemble (.unary op) [operand]

def call (signature : Signature) (arguments : List Node) (type : DataType) :
    Build Node :=
  assemble (.call signature type) arguments

/-- The node with an annotation set.  A node that has it already is kept. -/
def annotate (node : Node) (name : String) (value : NoteValue) : Build Node := do
  if node.annotations.has name value then
    return node
  else
    let handle ← fresh
    return { node with
      handle
      annotations := node.annotations.set handle name value }

/-- The node over other children of the right categories. -/
def update (node : Node) (children : List Node) : Build Node :=
  if areAll children node.children then pure node
  else compose node.label node.annotations children

/-- The node over any other children.  Calls look at the categories of all
their arguments before they count them; other nodes count first. -/
def updateChildren (node : Node) (children : List Node) : Build Node := do
  unless node.label.isCall do
    Attempt.ofExcept (node.label.checkCount children)
  Attempt.ofExcept (node.label.checkCategories 0 children)
  node.update children

/-- A join with another table; its predicate was checked before. -/
def updateTable (node table : Node) : Build Node :=
  match node.children with
  | [] => pure node
  | old :: rest => do
      if table.is old then
        return node
      else
        return node.label.node (← fresh) node.annotations (table :: rest)

/-- A call of another function with the same arguments.  Always a new node; a
node that is no call is kept. -/
def withSignature (node : Node) (signature : Signature) : Build Node :=
  match node.label with
  | .call _ type => compose (.call signature type) node.annotations node.children
  | _ => pure node

/-- Gives each child in turn to `change` and checks the category of the result
before it goes on. -/
def visitFrom {σ : Type} (change : Node → Work σ Node) (label : Label) :
    Nat → List Node → Work σ (List Node)
  | _, [] => pure []
  | place, child :: rest => do
      let changed ← change child
      let _ ← Attempt.ofExcept (changed.expect label.kind (label.slotCategory place))
      return changed :: (← visitFrom change label (place + 1) rest)

/-- The node over the children that `change` answers. -/
def visitChildren {σ : Type} (change : Node → Work σ Node) (node : Node) :
    Work σ Node := do
  node.update (← visitFrom change node.label 0 node.children)

end Node

end QueryPlan
