import QueryPlan.Rewrite.Rule

/-!
# Substitution of parameters

A parameter whose name is bound becomes a constant.  The constant keeps the
type that was declared for the parameter, and its annotations.
-/

namespace QueryPlan

variable [ForeignTypes]

/-- Values bound to the names of parameters. -/
structure Bindings where
  entries : List (String × Literal)

namespace Bindings

def empty : Bindings := ⟨[]⟩

/-- The binding of a name that was made last. -/
def get? (bindings : Bindings) (name : String) : Option Literal :=
  (bindings.entries.find? (·.1 = name)).map (·.2)

/-- Binds a name, instead of any binding it had. -/
def bind (bindings : Bindings) (name : String) (value : Literal) : Bindings :=
  ⟨(name, value) :: bindings.entries⟩

def ofList (pairs : List (String × Literal)) : Bindings :=
  pairs.foldl (fun bindings (name, value) => bindings.bind name value) empty

def apply (bindings : Bindings) (node : Node) : Build Outcome :=
  match node.label with
  | .parameter name type =>
      match bindings.get? name with
      | some value =>
          if type.accepts value.dataType then do
            return .changed
              ((Label.constant value type).node (← fresh) node.annotations [])
          else throw (.incompatibleBinding name type value.dataType)
      | none => pure (.unchanged node)
  | _ => pure (.unchanged node)

def rule (bindings : Bindings) : Rule :=
  ⟨"ParameterSubstitutionRule", bindings.apply⟩

end Bindings

end QueryPlan
