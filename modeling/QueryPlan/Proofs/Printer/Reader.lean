import QueryPlan.Proofs.Printer.Names

/-!
# Reading tokens

A reader goes through the tokens of a plan from left to right and finds the plan
again, as far as its text shows it: constants stand for their texts, and what is
not printed is left out.  An expression is a sign, a word or an operand with what
follows it; an operand is a word, a call, a quoted text or an expression in
parentheses.
-/

namespace QueryPlan

open Token

/-! ## What a text shows -/

namespace Label

/-- The label without types and the parameters of signatures, all NaNs being
one. -/
def bare : Label → Label
  | column qualifier name _ => .column qualifier name .unknown
  | constant value _ => .constant value.bare .unknown
  | parameter name _ => .parameter name .unknown
  | call signature _ => .call ⟨signature.declaring, signature.name, []⟩ .unknown
  | label => label

/-- The bare label with the text of a constant in its place. -/
def sketch : Label → Label
  | constant value _ => .constant (.string value.text) .unknown
  | label => label.bare

theorem bare_eq_of_sketch_eq {a b : Label} (hsketch : a.sketch = b.sketch) :
    a.bare = b.bare := by
  cases a <;> cases b <;> simp_all [sketch, bare]
  exact Literal.text_injective hsketch

end Label

variable [ForeignTypes]

namespace Node

/-- A node of which the label and the children alone count. -/
def outline (label : Label) (children : List Node) : Node :=
  ⟨0, label, .unknown, .empty, children⟩

mutual

def relabel (change : Label → Label) (node : Node) : Node :=
  match node with
  | ⟨_, label, _, _, children⟩ => outline (change label) (relabelAll change children)

def relabelAll (change : Label → Label) : List Node → List Node
  | [] => []
  | node :: rest => relabel change node :: relabelAll change rest

end

/-- The plan without handles, annotations, types and the parameters of
signatures, all NaNs being one. -/
def bare (node : Node) : Node :=
  node.relabel Label.bare

/-- What the text of a plan shows. -/
def sketch (node : Node) : Node :=
  node.relabel Label.sketch

theorem relabelAll_eq_map (change : Label → Label) (nodes : List Node) :
    relabelAll change nodes = nodes.map (relabel change) := by
  induction nodes with
  | nil => rfl
  | cons node rest ih => rw [relabelAll, ih, List.map_cons]

theorem relabel_eq (change : Label → Label) (node : Node) :
    node.relabel change = outline (change node.label) (node.children.map (relabel change)) := by
  cases node
  rw [relabel, relabelAll_eq_map]

theorem sketch_eq (node : Node) :
    node.sketch = outline node.label.sketch (node.children.map sketch) :=
  relabel_eq _ node

theorem bare_eq_of_sketch_eq {a b : Node} (hsketch : a.sketch = b.sketch) :
    a.bare = b.bare := by
  induction a using Node.inductionOn generalizing b with
  | step a ih =>
      rw [sketch_eq, sketch_eq] at hsketch
      have hlabel : a.label.sketch = b.label.sketch := congrArg label hsketch
      have hchildren : a.children.map sketch = b.children.map sketch :=
        congrArg children hsketch
      have hbare : a.children.map bare = b.children.map bare := by
        have hlength : a.children.length = b.children.length := by
          simpa using congrArg List.length hchildren
        apply List.ext_getElem (by simpa using hlength)
        intro place hplace hplace'
        simp only [List.length_map] at hplace hplace'
        simp only [List.getElem_map]
        apply ih _ (List.getElem_mem hplace)
        simpa [hplace, hplace'] using congrArg (·[place]?) hchildren
      rw [bare, bare, relabel_eq, relabel_eq, Label.bare_eq_of_sketch_eq hlabel]
      exact congrArg (outline b.label.bare) hbare

end Node

/-! ## The reader -/

/-- What was read, and the tokens behind it. -/
abbrev Reader (α : Type) := List Token → Option (α × List Token)

namespace Reader

def unqualify (word : List Char) : Option String × String :=
  match word.span (· != '.') with
  | (name, []) => (none, String.ofList name)
  | (qualifier, _ :: name) => (some (String.ofList qualifier), String.ofList name)

def constantOf (text : List Char) : Node :=
  .outline (.constant (.string (String.ofList text)) .unknown) []

def ofWord (word : List Char) : Node :=
  if Literal.isWord word then constantOf word
  else match word with
    | '@' :: name => .outline (.parameter (String.ofList name) .unknown) []
    | word => .outline (.column (unqualify word).1 (unqualify word).2 .unknown) []

def callLabel (word : List Char) : Label :=
  .call ⟨(unqualify word).1, (unqualify word).2, []⟩ .unknown

def operator? (token : Token) : Option BinaryOperator :=
  BinaryOperator.all.find? (·.token = token)

/-- Goes on behind the left operand of an expression. -/
def suffix (operand : Reader Node) (left : Node) : Reader Node
  | .blank :: token :: rest =>
      if token = .ofString "IS" then
        match rest with
        | .blank :: .word letters :: rest =>
            if letters = "NULL".toList then some (.outline (.unary .isNull) [left], rest)
            else some (.outline (.unary .isNotNull) [left], rest.drop 2)
        | _ => none
      else match operator? token with
        | some op => do
            let (right, rest) ← operand (rest.drop 1)
            some (.outline (.binary op) [left, right], rest)
        | none => some (left, .blank :: token :: rest)
  | rest => some (left, rest)

def negative (operand : Reader Node) (tokens : List Token) : Option (Node × List Token) :=
  match tokens with
  | .word letters :: rest =>
      if Literal.isWord letters then some (constantOf ('-' :: letters), rest)
      else do
        let (node, rest) ← operand tokens
        some (.outline (.unary .negate) [node], rest)
  | _ => do
      let (node, rest) ← operand tokens
      some (.outline (.unary .negate) [node], rest)

def expression (operand : Reader Node) (tokens : List Token) : Option (Node × List Token) :=
  match tokens with
  | [] => none
  | token :: rest =>
      if token = .minus then negative operand rest
      else if token = .ofString "NOT" then do
        let (node, rest) ← operand (rest.drop 1)
        some (.outline (.unary .not) [node], rest)
      else do
        let (left, rest) ← operand tokens
        suffix operand left rest

/-- The arguments of a call behind the first one. -/
def moreArguments (argument : Reader Node) : Nat → Reader (List Node)
  | fuel + 1, .comma :: .blank :: rest => do
      let (node, rest) ← argument rest
      let (nodes, rest) ← moreArguments argument fuel rest
      some (node :: nodes, rest)
  | _, .closing :: rest => some ([], rest)
  | _, _ => none

def arguments (argument : Reader Node) (fuel : Nat) (tokens : List Token) :
    Option (List Node × List Token) :=
  match argument tokens with
  | some (node, rest) => do
      let (nodes, rest) ← moreArguments argument fuel rest
      some (node :: nodes, rest)
  | none =>
      match tokens with
      | .closing :: rest => some ([], rest)
      | _ => none

def operand : Nat → Reader Node
  | fuel + 1, .opening :: rest =>
      match expression (operand fuel) rest with
      | some (node, .closing :: rest) => some (node, rest)
      | _ => none
  | _ + 1, .text chars :: rest => some (constantOf (Token.text chars).chars, rest)
  | fuel + 1, .word letters :: .opening :: rest => do
      let (nodes, rest) ← arguments (expression (operand fuel)) fuel rest
      some (.outline (callLabel letters) nodes, rest)
  | _ + 1, .word letters :: rest => some (ofWord letters, rest)
  | _, _ => none

def joins : List Label :=
  [.join .cross, .join .crossApply, .join .outerApply, .joinOn .inner, .joinOn .left]

/-- The join that a row of tokens begins with. -/
def joining? (tokens : List Token) : Option (Label × List Token) :=
  joins.findSome? fun label =>
    (label.openingTokens.isPrefixOf? tokens).map fun rest => (label, rest)

def table (word : List Char) (rest : List Token) : Node × List Token :=
  let (schema, name) := unqualify word
  match rest with
  | .blank :: keyword :: .blank :: .word aliasName :: others =>
      if keyword = .ofString "AS" then
        (.outline (.table name schema (some (String.ofList aliasName))) [], others)
      else (.outline (.table name schema none) [], rest)
  | _ => (.outline (.table name schema none) [], rest)

def source : Nat → Reader Node
  | 0, _ => none
  | fuel + 1, tokens =>
      match joining? tokens with
      | some (.joinOn form, rest) => do
          let (table, rest) ← source fuel rest
          let (predicate, rest) ← expression (operand fuel) (rest.drop 3)
          some (.outline (.joinOn form) [table, predicate], rest)
      | some (label, rest) => do
          let (table, rest) ← source fuel rest
          some (.outline label [table], rest)
      | none =>
          match tokens with
          | .word letters :: rest => some (table letters rest)
          | _ => none

end Reader

end QueryPlan
