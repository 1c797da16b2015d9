import QueryPlan.DataType
import QueryPlan.Decimal.Layout
import QueryPlan.Text.Quoted

/-!
# Literal values

The values that constants and annotations carry.  `same` compares them as
values, so that numbers which are equal count as equal whatever their bits;
the text of a literal shows more than `same` compares.
-/

namespace QueryPlan

inductive Literal where
  | null
  | bool (value : Bool)
  | int (value : Int64)
  | float (value : Binary64)
  | string (value : String)
  | bytes (value : List UInt8)
  deriving DecidableEq

namespace Literal

/-- The type of a literal; `NULL` has none of its own. -/
def dataType : Literal → DataType
  | null => .unknown
  | bool _ => .boolean
  | int _ => .integer
  | float _ => .float
  | string _ => .string
  | bytes _ => .binary

def isNull : Literal → Bool
  | null => true
  | _ => false

/-- Equality of values. -/
def same : Literal → Literal → Bool
  | null, null => true
  | bool a, bool b => a == b
  | int a, int b => a = b
  | float a, float b => a.same b
  | string a, string b => a = b
  | bytes a, bytes b => a = b
  | _, _ => false

/-- Whether a literal is a number with a negative sign.  Zeros and NaNs have a
sign too, although the text of a NaN does not show it. -/
def isNegative : Literal → Bool
  | int value => value < 0
  | float value => value.isNegative
  | _ => false

def text : Literal → String
  | null => "NULL"
  | bool true => "TRUE"
  | bool false => "FALSE"
  | int value => toString value.toInt
  | float value => value.text
  | string value => Text.quoted value
  | bytes value => "0x" ++ String.ofList (Text.upperHex value)

end Literal

end QueryPlan
