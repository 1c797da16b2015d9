import QueryPlan.Node.Walk

/-!
# Collections

What a plan refers to: its tables in the order of the walk, its parameters with
the types of their first mention, sorted by name, and the functions it calls,
sorted and without repetitions.
-/

namespace QueryPlan

variable [ForeignTypes]

/-- Parameters sorted by name, each with a type. -/
abbrev ParameterTypes := List (String × DataType)

/-- Adds a parameter in its place, unless it is there already. -/
def ParameterTypes.declare (name : String) (type : DataType) :
    ParameterTypes → ParameterTypes
  | [] => [(name, type)]
  | (first, firstType) :: rest =>
      if name < first then (name, type) :: (first, firstType) :: rest
      else if name = first then (first, firstType) :: rest
      else (first, firstType) :: ParameterTypes.declare name type rest

/-- Drops every signature that repeats the one before it. -/
def Signature.distinct : List Signature → List Signature
  | [] => []
  | [signature] => [signature]
  | a :: b :: rest =>
      if a = b then Signature.distinct (b :: rest)
      else a :: Signature.distinct (b :: rest)

namespace Walker

/-- Gathers tables, the last one first. -/
def tables : Walker (List Node) where
  source node inside found :=
    inside (if node.kind = .table then node :: found else found)

/-- Gathers parameters, the first mention of each. -/
def parameters : Walker ParameterTypes where
  parameter node found :=
    match node.label with
    | .parameter name type => found.declare name type
    | _ => found

/-- Gathers the signatures of calls, the last one first. -/
def signatures : Walker (List Signature) where
  call node arguments found :=
    arguments.foldl (fun found argument => argument found)
      (match node.label with
        | .call signature _ => signature :: found
        | _ => found)

end Walker

namespace Node

def tables (node : Node) : List Node :=
  (node.walk .tables []).reverse

def parameters (node : Node) : ParameterTypes :=
  node.walk .parameters []

def functions (node : Node) : List Signature :=
  Signature.distinct (Signature.sort (node.walk .signatures []).reverse)

end Node

end QueryPlan
