import QueryPlan.Json.Number
import QueryPlan.Json.Printer
import QueryPlan.Literal
import QueryPlan.Node.Description
import QueryPlan.Operator

/-!
# Documents of literals, words and descriptions

A word of a fixed list is a string, or an object whose only member has that name
and the value null.  A literal is an object whose only member is named for its
kind.  A record of fixed fields is an object that has each of them once, and
perhaps others, or the array of their values in order.

Documents may be nested to a limited depth.  It is counted along the parts that
mean something, so members that are passed over may be nested deeper.
-/

namespace QueryPlan

namespace Json

/-- How deeply a document may be nested. -/
def deepest : Nat := 127

/-- A choice among named alternatives: the name, and the content if there is
one.  Content lies one level deeper. -/
def choice? (levels : Nat) : Json → Option (String × Option Json)
  | string body => do
      return (String.ofList (← unescape body), none)
  | object [(name, content)] =>
      if levels = 0 then none
      else do return (String.ofList (← unescape name), some content)
  | _ => none

/-- A word of a fixed list. -/
def word? {α : Type} (ofTag? : String → Option α) (levels : Nat) (json : Json) :
    Option α := do
  match ← choice? levels json with
  | (name, none) | (name, some null) => ofTag? name
  | _ => none

/-- The value of the only member with a name. -/
def field? (members : List (String × Json)) (name : String) : Option Json :=
  match members.filter (·.1 = name) with
  | [(_, value)] => some value
  | _ => none

/-- The values of the fields of a record.  The name of every member must be
readable, also if the member is passed over. -/
def record? (names : List String) : Json → Option (List Json)
  | object members => do
      let members ← members.mapM fun (name, value) => do
        return (String.ofList (← unescape name), value)
      names.mapM (field? members)
  | array items => if items.length = names.length then some items else none
  | _ => none

end Json

/-- Documents of words. -/
def DataType.ofJson (json : Json) : Option DataType :=
  json.word? DataType.ofTag? Json.deepest

def DataType.toJson (type : DataType) : Json :=
  .ofString type.tag

def Kind.ofJson (levels : Nat) (json : Json) : Option Kind :=
  json.word? Kind.ofName? levels

def Kind.toJson (kind : Kind) : Json :=
  .ofString kind.name

def BinaryOperator.ofJson (json : Json) : Option BinaryOperator :=
  json.word? BinaryOperator.ofTag? Json.deepest

def BinaryOperator.toJson (op : BinaryOperator) : Json :=
  .ofString op.tag

def UnaryOperator.ofJson (json : Json) : Option UnaryOperator :=
  json.word? UnaryOperator.ofTag? Json.deepest

def UnaryOperator.toJson (op : UnaryOperator) : Json :=
  .ofString op.tag

namespace Literal

def intOfJson : Json → Option Int64
  | .number value => do
      let value ← value.toInt?
      if -(Int.pow 2 63) ≤ value ∧ value < Int.pow 2 63 then some (Int64.ofInt value)
      else none
  | _ => none

def byteOfJson : Json → Option UInt8
  | .number value => do
      let value ← value.toInt?
      if 0 ≤ value ∧ value < 256 then some (UInt8.ofNat value.toNat) else none
  | _ => none

def ofJson (json : Json) : Option Literal := do
  match ← json.choice? Json.deepest with
  | ("Null", none) | ("Null", some .null) => return .null
  | ("Bool", some (.bool value)) => return .bool value
  | ("Int", some content) => return .int (← intOfJson content)
  | ("Float", some (.number value)) => return .float (← value.toBinary64?)
  | ("String", some content) => return .string (← content.text?)
  | ("Bytes", some (.array items)) => return .bytes (← items.mapM byteOfJson)
  | _ => none

/-- An object with one member. -/
def tagged (name : String) (content : Json) : Json :=
  .object [(Json.escape name.toList, content)]

/-- Numbers without a value have no numeral; they are written as null. -/
def floatToJson (value : Binary64) : Json :=
  if value.isNaN || value.isInfinite then .null
  else .number (Layout.stored.finite value)

def toJson : Literal → Json
  | null => .ofString "Null"
  | bool value => tagged "Bool" (.bool value)
  | int value => tagged "Int" (.ofInt value.toInt)
  | float value => tagged "Float" (floatToJson value)
  | string value => tagged "String" (.ofString value)
  | bytes value => tagged "Bytes" (.array (value.map fun byte => .ofInt byte.toNat))

end Literal

namespace Pair

def toJson (pair : Pair) : Json :=
  .object [("key".toList, .ofString pair.key), ("value".toList, .ofString pair.value)]

def ofJson (levels : Nat) (json : Json) : Option Pair :=
  match levels with
  | 0 => none
  | _ + 1 => do
      match ← json.record? ["key", "value"] with
      | [key, value] => return ⟨← key.text?, ← value.text?⟩
      | _ => none

/-- A list of pairs. -/
def listOfJson (levels : Nat) : Json → Option (List Pair)
  | .array items =>
      match levels with
      | 0 => none
      | levels + 1 => items.mapM (ofJson levels)
  | _ => none

end Pair

namespace Description

mutual

def toJson (description : Description) : Json :=
  match description with
  | ⟨kind, details, annotations, children⟩ =>
      .object
        [("kind".toList, kind.toJson),
          ("details".toList, .array (details.map Pair.toJson)),
          ("annotations".toList, .array (annotations.map Pair.toJson)),
          ("children".toList, .array (toJsonAll children))]

def toJsonAll : List Description → List Json
  | [] => []
  | description :: rest => toJson description :: toJsonAll rest

end

/-- Reads a description that may be nested `levels` deep.  A description opens
one level, and the list of its children another. -/
def ofJson (levels : Nat) (json : Json) : Option Description :=
  match levels with
  | 0 | 1 => none
  | levels + 2 => do
      match ← json.record? ["kind", "details", "annotations", "children"] with
      | [kind, details, annotations, .array children] =>
          return ⟨← Kind.ofJson (levels + 1) kind,
            ← Pair.listOfJson (levels + 1) details,
            ← Pair.listOfJson (levels + 1) annotations,
            ← children.mapM (ofJson levels)⟩
      | _ => none

/-- The description in a text. -/
def read? (text : String) : Option Description := do
  ofJson Json.deepest (← Json.read? text)

/-- The description as a text on one line. -/
def text (description : Description) : String :=
  description.toJson.text

/-- The description as a text over several lines. -/
def prettyText (description : Description) : String :=
  description.toJson.prettyText

end Description

end QueryPlan
