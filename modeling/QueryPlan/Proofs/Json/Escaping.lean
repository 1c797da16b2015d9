import QueryPlan.Json.Reader

/-!
# Escaped strings in JSON documents

A string is written between quotes with its quotes, backslashes and control characters
escaped.  What is written so means the same characters again, and it holds no quote that would
end the string too early.
-/

namespace QueryPlan.Json

/-! ## Single characters -/

theorem codeUnit?_hexDigit {n : Nat} (hn : n < 32) :
    codeUnit? '0' '0' (hexDigit (n / 16)) (hexDigit (n % 16)) = some n := by
  revert n
  decide

theorem unescape_cons {c : Char} (hbackslash : c ≠ '\\') (rest : List Char) :
    unescape (c :: rest) = (unescape rest).map (c :: ·) := by
  rw [unescape]
  · cases unescape rest <;> rfl
  · rintro _ _ _ _ _ rfl _
    exact hbackslash rfl
  · rintro _ _ rfl _
    exact hbackslash rfl

theorem unescape_escapeChar (c : Char) (rest : List Char) :
    unescape (escapeChar c ++ rest) = (unescape rest).map (c :: ·) := by
  fun_cases escapeChar c with
  | case8 _ _ _ _ _ _ _ _ hcontrol =>
      have hlow : ¬ (0xDC00 ≤ c.toNat ∧ c.toNat ≤ 0xDFFF) := by omega
      have hhigh : ¬ (0xD800 ≤ c.toNat ∧ c.toNat ≤ 0xDBFF) := by omega
      simp only [List.cons_append, List.nil_append, unescape, codeUnit?_hexDigit hcontrol]
      cases unescape rest <;> simp [hlow, hhigh, Char.ofNat_toNat]
  | case9 _ _ hbackslash => exact unescape_cons hbackslash rest
  | _ => cases hrest : unescape rest <;> simp [unescape, shortEscape?, hrest]

theorem scanString_cons {c : Char} (hquote : c ≠ '"') (hbackslash : c ≠ '\\')
    (hprintable : ¬ c.toNat < 32) (rest : List Char) :
    Token.scanString (c :: rest)
      = (Token.scanString rest).map fun (body, after) => (c :: body, after) := by
  rw [Token.scanString, if_neg hprintable]
  · cases Token.scanString rest <;> rfl
  · exact hquote
  · rintro _ _ _ _ _ rfl _
    exact hbackslash rfl
  · rintro _ _ rfl _
    exact hbackslash rfl

theorem scanString_escapeChar (c : Char) (rest : List Char) :
    Token.scanString (escapeChar c ++ rest)
      = (Token.scanString rest).map fun (body, after) => (escapeChar c ++ body, after) := by
  fun_cases escapeChar c with
  | case8 _ _ _ _ _ _ _ _ hcontrol =>
      simp only [List.cons_append, List.nil_append, Token.scanString,
        codeUnit?_hexDigit hcontrol]
      cases Token.scanString rest <;> simp
  | case9 _ hquote hbackslash _ _ _ _ _ hprintable =>
      exact scanString_cons hquote hbackslash hprintable rest
  | _ => cases hrest : Token.scanString rest <;> simp [Token.scanString, shortEscape?, hrest]

/-! ## Strings -/

@[simp] theorem escape_cons (c : Char) (text : List Char) :
    escape (c :: text) = escapeChar c ++ escape text := rfl

@[simp] theorem unescape_escape (text : List Char) : unescape (escape text) = some text := by
  induction text with
  | nil => rfl
  | cons c rest ih => rw [escape_cons, unescape_escapeChar, ih, Option.map_some]

/-- A written string ends at the quote after it. -/
theorem scanString_escape (text rest : List Char) :
    Token.scanString (escape text ++ '"' :: rest) = some (escape text, rest) := by
  induction text with
  | nil => rfl
  | cons c text ih =>
      rw [escape_cons, List.append_assoc, scanString_escapeChar, ih, Option.map_some]

@[simp] theorem text?_ofString (text : String) : (ofString text).text? = some text := by
  simp [text?, ofString]

end QueryPlan.Json
