/-!
# Quoted text

A text stands between single quotes, and a quote inside it is written twice.
-/

namespace QueryPlan.Text

/-- Doubles every single quote. -/
def doubled : List Char → List Char
  | [] => []
  | c :: rest => if c = '\'' then '\'' :: '\'' :: doubled rest else c :: doubled rest

def quoted (text : String) : String :=
  "'" ++ String.ofList (doubled text.toList) ++ "'"

/-- The digit of a number below sixteen, in upper case. -/
def upperHexDigit (n : Nat) : Char :=
  if n < 10 then Char.ofNat (48 + n) else Char.ofNat (55 + n)

/-- Two digits for every byte. -/
def upperHex : List UInt8 → List Char
  | [] => []
  | byte :: rest =>
      upperHexDigit (byte.toNat / 16) :: upperHexDigit (byte.toNat % 16)
        :: upperHex rest

end QueryPlan.Text
