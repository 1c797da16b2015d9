import Mathlib.Data.String.Basic

/-!
# The order of strings is the order of their bytes

Strings are compared by their characters.  Their UTF-8 encodings are in the same order: a
smaller character is encoded by a smaller first byte, or by as many bytes, of which the first
that differ are in the order of the characters.
-/

namespace QueryPlan.Text

/-- The UTF-8 encoding of a text. -/
def bytes (s : String) : List UInt8 :=
  s.toByteArray.data.toList

theorem bytes_eq_flatMap (s : String) : bytes s = s.toList.flatMap String.utf8EncodeChar := by
  rw [bytes, ← String.utf8Encode_toList, List.utf8Encode, List.toList_data_toByteArray]

theorem utf8EncodeChar_append_lt {c d : Char} (hlt : c < d) (more : List UInt8) :
    String.utf8EncodeChar c ++ more < String.utf8EncodeChar d := by
  have hcode : c.val.toNat < d.val.toNat := hlt
  have hbound : d.val.toNat < 0x110000 := by
    have hvalid : d.val.toNat.isValidChar := d.valid
    rcases hvalid with hlow | ⟨-, hhigh⟩ <;> omega
  simp only [String.utf8EncodeChar]
  generalize c.val.toNat = v at hcode ⊢
  generalize d.val.toNat = w at hcode hbound ⊢
  -- The digits to the base 64 are those of the quotients.
  have hdigits : v / 64 / 64 = v / 4096 ∧ v / 4096 / 64 = v / 262144 := by omega
  have hdigits' : w / 64 / 64 = w / 4096 ∧ w / 4096 / 64 = w / 262144 := by omega
  split_ifs <;>
    simp only [List.cons_append, List.nil_append, List.cons_lt_cons_iff, List.not_lt_nil,
      UInt8.lt_iff_toNat_lt, ← UInt8.toNat_inj, UInt8.toNat_ofNat', and_false, or_false] <;>
    simp (disch := omega) only [Nat.mod_eq_of_lt] <;> omega

theorem flatMap_utf8EncodeChar_lt {chars others : List Char} (hlt : chars < others) :
    chars.flatMap String.utf8EncodeChar < others.flatMap String.utf8EncodeChar := by
  induction hlt with
  | @nil other rest =>
      obtain ⟨byte, more, hbytes⟩ :=
        List.exists_cons_of_ne_nil (@String.utf8EncodeChar_ne_nil other)
      rw [List.flatMap_nil, List.flatMap_cons, hbytes]
      exact List.nil_lt_cons byte _
  | @rel first chars other rest hfirst =>
      rw [List.flatMap_cons, List.flatMap_cons]
      exact List.Lex.append_right (· < ·) _ (utf8EncodeChar_append_lt hfirst _)
  | cons _ ih =>
      rw [List.flatMap_cons, List.flatMap_cons]
      exact List.append_left_lt ih

theorem bytes_lt_of_lt {s t : String} (hlt : s < t) : bytes s < bytes t := by
  rw [bytes_eq_flatMap, bytes_eq_flatMap]
  exact flatMap_utf8EncodeChar_lt hlt

end QueryPlan.Text
