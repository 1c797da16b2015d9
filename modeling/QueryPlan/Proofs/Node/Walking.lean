import QueryPlan.Node.Traversal
import QueryPlan.Node.Walk
import QueryPlan.Proofs.Node.WellFormed

/-!
# Walks in preorder

A walker sees nodes in preorder when each of its methods takes note of the node
first and then makes the walks of all children in turn.  Whether it takes note on
arrival or in the methods for the shapes of nodes makes no difference: over a whole
plan both are the run of one function through the preorder, and so is the traversal
by an operation that always goes on.
-/

namespace QueryPlan

namespace Walker

variable {σ : Type}

/-- The rows of as many walks as a label has children, kind by kind. -/
inductive Row : Label → List (σ → σ) → Prop
  | table (name : String) (schema aliasName : Option String) :
      Row (.table name schema aliasName) []
  | crossJoin (table : σ → σ) : Row (.join .cross) [table]
  | crossApply (table : σ → σ) : Row (.join .crossApply) [table]
  | outerApply (table : σ → σ) : Row (.join .outerApply) [table]
  | innerJoin (table predicate : σ → σ) : Row (.joinOn .inner) [table, predicate]
  | leftJoin (table predicate : σ → σ) : Row (.joinOn .left) [table, predicate]
  | column (qualifier : Option String) (name : String) (type : DataType) :
      Row (.column qualifier name type) []
  | constant (value : Literal) (type : DataType) : Row (.constant value type) []
  | parameter (name : String) (type : DataType) : Row (.parameter name type) []
  | binary (op : BinaryOperator) (left right : σ → σ) : Row (.binary op) [left, right]
  | unary (op : UnaryOperator) (operand : σ → σ) : Row (.unary op) [operand]
  | call (signature : Signature) (type : DataType) (arguments : List (σ → σ)) :
      Row (.call signature type) arguments

theorem row_of_length_eq {label : Label} {children : List (σ → σ)}
    (hlength : children.length = label.arity) : Row label children := by
  cases label with
  | table name schema aliasName =>
      rw [List.length_eq_zero_iff.mp hlength]
      exact .table name schema aliasName
  | join form =>
      obtain ⟨table, rfl⟩ := List.length_eq_one_iff.mp hlength
      cases form with
      | cross => exact .crossJoin table
      | crossApply => exact .crossApply table
      | outerApply => exact .outerApply table
  | joinOn form =>
      obtain ⟨table, predicate, rfl⟩ := List.length_eq_two.mp hlength
      cases form with
      | inner => exact .innerJoin table predicate
      | left => exact .leftJoin table predicate
  | column qualifier name type =>
      rw [List.length_eq_zero_iff.mp hlength]
      exact .column qualifier name type
  | constant value type =>
      rw [List.length_eq_zero_iff.mp hlength]
      exact .constant value type
  | parameter name type =>
      rw [List.length_eq_zero_iff.mp hlength]
      exact .parameter name type
  | binary op =>
      obtain ⟨left, right, rfl⟩ := List.length_eq_two.mp hlength
      exact .binary op left right
  | unary op =>
      obtain ⟨operand, rfl⟩ := List.length_eq_one_iff.mp hlength
      exact .unary op operand
  | call signature type => exact .call signature type children

end Walker

variable [ForeignTypes] {σ : Type}

/-- The operation that takes note of each node and always goes on. -/
def proceeding (see : Node → σ → σ) (node : Node) : Attempt σ Recursion := do
  modify (see node)
  return .proceed

namespace Node

theorem applyAll_proceeding (see : Node → σ → σ) {nodes : List Node}
    (hnodes : ∀ node ∈ nodes, ∀ state, node.apply (proceeding see) state =
      .ok .proceed (node.preorder.foldl (fun state part => see part state) state))
    (state : σ) :
    applyAll (proceeding see) nodes state = .ok .proceed
      ((nodes.flatMap preorder).foldl (fun state part => see part state) state) := by
  induction nodes generalizing state with
  | nil => rfl
  | cons node rest ih =>
      have hfirst := hnodes node List.mem_cons_self state
      rw [applyAll, List.flatMap_cons, List.foldl_append,
        ← ih fun other hother => hnodes other (List.mem_cons_of_mem node hother)]
      simp only [bind, EStateM.bind, hfirst]

theorem apply_proceeding (see : Node → σ → σ) (node : Node) (state : σ) :
    node.apply (proceeding see) state = .ok .proceed
      (node.preorder.foldl (fun state part => see part state) state) := by
  induction node using Node.inductionOn generalizing state with
  | step node ih =>
      rw [preorder_eq, List.foldl_cons,
        ← applyAll_proceeding see fun child hchild state => ih child hchild state]
      cases node
      rfl

theorem walkAll_eq_map (walker : Walker σ) (nodes : List Node) :
    walkAll walker nodes = nodes.map (walk walker) := by
  induction nodes with
  | nil => rfl
  | cons node rest ih => rw [walkAll, ih, List.map_cons]

theorem walk_eq (walker : Walker σ) (node : Node) :
    node.walk walker =
      walker.arrive node (walker.enter node (node.children.map (walk walker))) := by
  cases node
  rw [walk, walkAll_eq_map]

end Node

namespace Walker

/-- One walk after the other. -/
def inTurn (walks : List (σ → σ)) (state : σ) : σ :=
  walks.foldl (fun state walk => walk state) state

/-- At every node with the right number of children the walker takes note of the
node and then walks all children in turn. -/
def Sees (walker : Walker σ) (see : Node → σ → σ) : Prop :=
  ∀ (node : Node) (children : List (σ → σ)) (state : σ),
    children.length = node.label.arity →
    walker.arrive node (walker.enter node children) state =
      inTurn children (see node state)

theorem inTurn_walks {walker : Walker σ} {see : Node → σ → σ} {nodes : List Node}
    (hnodes : ∀ node ∈ nodes, ∀ state, node.walk walker state =
      node.preorder.foldl (fun state part => see part state) state) (state : σ) :
    inTurn (nodes.map (Node.walk walker)) state =
      (nodes.flatMap Node.preorder).foldl (fun state part => see part state) state := by
  induction nodes generalizing state with
  | nil => rfl
  | cons node rest ih =>
      rw [List.flatMap_cons, List.foldl_append, ← hnodes node List.mem_cons_self,
        ← ih fun other hother => hnodes other (List.mem_cons_of_mem node hother)]
      rfl

theorem Sees.walk_eq {walker : Walker σ} {see : Node → σ → σ} (hsees : walker.Sees see)
    {node : Node} (hnode : node.Whole) (state : σ) :
    node.walk walker state =
      node.preorder.foldl (fun state part => see part state) state := by
  induction node using Node.inductionOn generalizing state with
  | step node ih =>
      obtain ⟨hwell, hchildren⟩ := Node.whole_iff.mp hnode
      have harity : (node.children.map (Node.walk walker)).length = node.label.arity := by
        rw [List.length_map, hwell.arity]
      rw [Node.walk_eq, hsees node _ state harity, Node.preorder_eq, List.foldl_cons,
        inTurn_walks fun child hchild state => ih child hchild (hchildren child hchild) state]

/-! ## Walkers that see in preorder -/

/-- It is enough to look at one kind of node after the other. -/
theorem sees_of_rows {walker : Walker σ} {see : Node → σ → σ}
    (hrows : ∀ (handle : Handle) (type : DataType) (annotations : Annotations)
      (parts : List Node) (label : Label) (children : List (σ → σ)), Row label children →
      walker.arrive ⟨handle, label, type, annotations, parts⟩
          (walker.enter ⟨handle, label, type, annotations, parts⟩ children) =
        fun state => inTurn children (see ⟨handle, label, type, annotations, parts⟩ state)) :
    walker.Sees see := by
  intro node children state hlength
  obtain ⟨handle, label, type, annotations, parts⟩ := node
  exact congrFun (hrows handle type annotations parts label children
    (row_of_length_eq hlength)) state

/-- The walker that does everything by default. -/
def idle : Walker σ := {}

/-- The walker that takes note of nodes on arrival. -/
def arriving (see : Node → σ → σ) : Walker σ where
  source node inside state := idle.source node inside (see node state)
  scalar node inside state := idle.scalar node inside (see node state)

/-- The walker that takes note of nodes in the methods for their shapes. -/
def entering (see : Node → σ → σ) : Walker σ where
  table node state := idle.table node (see node state)
  join form node table state := idle.join form node table (see node state)
  joinOn form node table predicate state :=
    idle.joinOn form node table predicate (see node state)
  column node state := idle.column node (see node state)
  constant node state := idle.constant node (see node state)
  parameter node state := idle.parameter node (see node state)
  binary node left right state := idle.binary node left right (see node state)
  unary node operand state := idle.unary node operand (see node state)
  call node arguments state := idle.call node arguments (see node state)

theorem sees_arriving (see : Node → σ → σ) : (arriving see).Sees see := by
  apply sees_of_rows
  intro handle type annotations parts label children hrow
  cases hrow <;> rfl

theorem sees_entering (see : Node → σ → σ) : (entering see).Sees see := by
  apply sees_of_rows
  intro handle type annotations parts label children hrow
  cases hrow <;> rfl

end Walker

end QueryPlan
