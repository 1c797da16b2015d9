import QueryPlan.Rewrite.ForwardingTable

/-!
# The standard forwarding table

Functions that belong to a numeric type are forwarded to the functions of the
same name in `Math`, and those of single precision numbers to `MathF`.  Where
`MathF` has no such function, its name is forwarded to `Math` in turn.
-/

namespace QueryPlan.ForwardingTable

/-- A parameter of a function that exists for several numeric types. -/
inductive Operand where
  /-- A parameter of the numeric type itself. -/
  | own
  | named (type : String)

/-- A function that exists for several numeric types. -/
structure Method where
  name : String
  operands : List Operand

namespace Method

def unary (name : String) : Method := ⟨name, [.own]⟩

def binary (name : String) : Method := ⟨name, [.own, .own]⟩

def ternary (name : String) : Method := ⟨name, [.own, .own, .own]⟩

/-- The function for the numeric type `type`, declared by `declaring`. -/
def signature (method : Method) (declaring type : String) : Signature where
  declaring := some declaring
  name := method.name
  parameters := method.operands.map fun
    | .own => type
    | .named name => name

end Method

def rounding : List Method :=
  [.unary "Round", ⟨"Round", [.own, .named "int"]⟩,
    ⟨"Round", [.own, .named "int", .named "MidpointRounding"]⟩,
    ⟨"Round", [.own, .named "MidpointRounding"]⟩]

def unsignedMethods : List Method :=
  [.ternary "Clamp", .binary "Max", .binary "Min"]

def signedMethods : List Method :=
  [.unary "Abs", .unary "Sign"] ++ unsignedMethods

def decimalMethods : List Method :=
  [.unary "Ceiling", .unary "Floor", .unary "Truncate"] ++ signedMethods ++ rounding

def floatingMethods : List Method :=
  ["Acos", "Acosh", "Asin", "Asinh", "Atan", "Atanh", "BitDecrement",
    "BitIncrement", "Cbrt", "Ceiling", "Cos", "Cosh", "Exp", "Floor", "ILogB",
    "Log", "Log10", "Log2", "ReciprocalEstimate", "ReciprocalSqrtEstimate",
    "Sin", "Sinh", "Sqrt", "Tan", "Tanh", "Truncate"].map .unary
  ++ ["Atan2", "CopySign", "Log", "MaxMagnitude", "MinMagnitude", "Pow"].map .binary
  ++ [.ternary "FusedMultiplyAdd", ⟨"ScaleB", [.own, .named "int"]⟩]
  ++ rounding

/-- Entries from the functions of `source` to those of `target`, both for the
numeric type `type`. -/
def forwarded (source type target : String) (methods : List Method) :
    List (Signature × Signature) :=
  methods.map fun method =>
    (method.signature source type, method.signature target type)

/-- The remainder goes by another name in the target. -/
def forwardedRemainder (type target : String) : Signature × Signature :=
  ((Method.binary "Ieee754Remainder").signature type type,
    (Method.binary "IEEERemainder").signature target type)

def standard : ForwardingTable :=
  ⟨["int", "long", "sbyte", "short"].flatMap
      (fun type => forwarded type type "Math" signedMethods)
    ++ ["byte", "uint", "ulong", "ushort"].flatMap
      (fun type => forwarded type type "Math" unsignedMethods)
    ++ forwarded "decimal" "decimal" "Math" decimalMethods
    ++ forwarded "double" "double" "Math" (floatingMethods ++ signedMethods)
    ++ [forwardedRemainder "double" "Math"]
    ++ forwarded "float" "float" "MathF" floatingMethods
    ++ forwarded "float" "float" "Math" signedMethods
    ++ [forwardedRemainder "float" "MathF"]
    ++ forwarded "MathF" "float" "Math" signedMethods⟩

end QueryPlan.ForwardingTable
