/-!
# Digests

What a hash table is fed to find a key: a sequence of words, bytes and texts.
-/

namespace QueryPlan

inductive DigestItem where
  | word (value : UInt64)
  | byte (value : UInt8)
  | text (value : String)
  deriving DecidableEq

abbrev Digest := List DigestItem

namespace Digest

def number (n : Nat) : DigestItem :=
  .word (UInt64.ofNat n)

def integer (value : Int64) : DigestItem :=
  .word value.toUInt64

def flag (value : Bool) : DigestItem :=
  .byte (if value then 1 else 0)

/-- A length followed by the items of a list. -/
def ofList {α : Type} (digest : α → Digest) (items : List α) : Digest :=
  number items.length :: items.flatMap digest

def ofOption : Option String → Digest
  | none => [number 0]
  | some text => [number 1, .text text]

end Digest

end QueryPlan
