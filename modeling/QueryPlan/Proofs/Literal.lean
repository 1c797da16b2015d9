import QueryPlan.Literal
import QueryPlan.Proofs.Decimal.Numeral

/-!
# Texts of literals

The text of a literal that is no string is a word, with a minus sign in front of
it if the literal is a negative number.  The word begins with a digit or is one of
five names.  The text tells which literal it was made of, except that all NaNs
look alike.
-/

namespace QueryPlan

/-- Whether a character may stand in a word. -/
def Text.isPlain (c : Char) : Bool :=
  c != ' ' && c != '(' && c != ')' && c != ',' && c != '\''

theorem Text.isPlain_of_isDigit {c : Char} (hc : c.isDigit) : Text.isPlain c = true := by
  simp only [Text.isPlain, Bool.and_eq_true, bne_iff_ne]
  refine ⟨⟨⟨⟨?_, ?_⟩, ?_⟩, ?_⟩, ?_⟩ <;> rintro rfl <;> simp at hc

theorem toList_toString_int (value : Int) :
    (toString value).toList =
      (if value < 0 then ['-'] else []) ++ Nat.toDigits 10 value.natAbs := by
  cases value with
  | ofNat n =>
      have hsign : ¬ Int.ofNat n < 0 := by simp
      rw [if_neg hsign]
      exact Nat.toList_repr
  | negSucc n =>
      have hsign : Int.negSucc n < 0 := Int.negSucc_lt_zero n
      rw [if_pos hsign]
      simp [toString, Int.repr]

/-! ## Floats -/

namespace Numeral

theorem mem_exponentChars {exponent : Int} {c : Char}
    (hc : c ∈ exponentChars false exponent) : c.isDigit ∨ c = '-' ∨ c = 'e' := by
  simp only [exponentChars, Bool.false_eq_true, if_false, List.cons_append,
    List.mem_cons, List.mem_append] at hc
  rcases hc with rfl | hc | hc
  · exact .inr (.inr rfl)
  · split at hc <;> simp_all
  · exact .inl (isDigit_of_mem_toDigits hc)

theorem mem_tail {numeral : Numeral} (hnumeral : numeral.WellFormed) {c : Char}
    (hc : c ∈ numeral.tail) : c.isDigit ∨ c = '-' ∨ c = '.' ∨ c = 'e' := by
  unfold tail at hc
  rcases List.mem_append.mp hc with hc | hc
  · split at hc
    · simp at hc
    · rcases List.mem_cons.mp hc with rfl | hc
      · exact .inr (.inr (.inl rfl))
      · exact .inl (hnumeral.fraction c hc)
  · cases hexponent : numeral.exponent with
    | none => simp [hexponent] at hc
    | some exponent =>
        rw [hexponent] at hc
        rcases mem_exponentChars hc with hdigit | rfl | rfl
        · exact .inl hdigit
        · exact .inr (.inl rfl)
        · exact .inr (.inr (.inr rfl))

theorem mem_body {numeral : Numeral} (hnumeral : numeral.WellFormed) {c : Char}
    (hc : c ∈ numeral.whole ++ numeral.tail) :
    c.isDigit ∨ c = '-' ∨ c = '.' ∨ c = 'e' := by
  rcases List.mem_append.mp hc with hc | hc
  · exact .inl (hnumeral.whole c hc)
  · exact mem_tail hnumeral hc

theorem exists_mem_tail {numeral : Numeral}
    (hparts : numeral.fraction ≠ [] ∨ numeral.exponent.isSome) :
    ∃ c ∈ numeral.tail, c = '.' ∨ c = 'e' := by
  unfold tail
  rcases hparts with hfraction | hexponent
  · refine ⟨'.', ?_, .inl rfl⟩
    simp [hfraction]
  · obtain ⟨exponent, hexponent⟩ := Option.isSome_iff_exists.mp hexponent
    refine ⟨'e', ?_, .inr rfl⟩
    simp [hexponent, exponentChars]

theorem head?_body {numeral : Numeral} (hnumeral : numeral.WellFormed) :
    ∃ c, (numeral.whole ++ numeral.tail).head? = some c ∧ c.isDigit := by
  obtain ⟨c, rest, hwhole⟩ := List.exists_cons_of_ne_nil hnumeral.whole_ne_nil
  refine ⟨c, by simp [hwhole], hnumeral.whole c ?_⟩
  simp [hwhole]

end Numeral

namespace Binary64

variable {x y : Binary64}

theorem toList_text_of_finite (hnan : x.isNaN = false) (hinfinite : x.isInfinite = false) :
    x.text.toList = (if x.isNegative then ['-'] else []) ++
      ((Layout.printed.finite x).whole ++ (Layout.printed.finite x).tail) := by
  rw [text, hnan, hinfinite, ← Layout.negative_finite Layout.printed x,
    ← Numeral.chars_eq]
  simp

theorem toList_text_of_infinite (hnan : x.isNaN = false)
    (hinfinite : x.isInfinite = true) :
    x.text.toList = (if x.isNegative then ['-'] else []) ++ ['i', 'n', 'f'] := by
  rw [text, hnan, hinfinite]
  cases x.isNegative <;> simp

theorem magnitude_of_infinite (hinfinite : x.isInfinite = true) :
    x.magnitude = 2047 * 2 ^ 52 := by
  simp only [isInfinite, Bool.and_eq_true, decide_eq_true_eq, Decimal.exponent_eq,
    Decimal.fraction_eq] at hinfinite
  omega

theorem isNaN_of_text_eq (htext : x.text = "NaN") : x.isNaN = true := by
  by_contra hnan
  rw [Bool.not_eq_true] at hnan
  have hlist := congrArg String.toList htext
  have hmem : 'N' ∈ x.text.toList := by
    rw [hlist]
    decide
  cases hinfinite : x.isInfinite with
  | true =>
      rw [toList_text_of_infinite hnan hinfinite] at hmem
      cases hsign : x.isNegative <;> simp [hsign] at hmem
  | false =>
      rw [toList_text_of_finite hnan hinfinite] at hmem
      rcases List.mem_append.mp hmem with hmem | hmem
      · split at hmem <;> simp at hmem
      · have hnumeral := Layout.wellFormed_finite Layout.printed x
        exact absurd (Numeral.mem_body hnumeral hmem) (by decide)

theorem text_injective (hx : x.isNaN = false) (hy : y.isNaN = false)
    (htext : x.text = y.text) : x = y := by
  have hlist := congrArg String.toList htext
  have hinf : ∀ c ∈ ['i', 'n', 'f'].head?, c ≠ '-' := by simp
  have hbody : ∀ z : Binary64, ∀ c ∈ ((Layout.printed.finite z).whole ++
      (Layout.printed.finite z).tail).head?, c ≠ '-' := by
    rintro z c hc rfl
    obtain ⟨digit, hdigit, hisDigit⟩ :=
      Numeral.head?_body (Layout.wellFormed_finite Layout.printed z)
    rw [hdigit] at hc
    cases hc
    simp at hisDigit
  have hapart : ∀ z : Binary64, (Layout.printed.finite z).whole ++
      (Layout.printed.finite z).tail ≠ ['i', 'n', 'f'] := by
    intro z heq
    obtain ⟨digit, hdigit, hisDigit⟩ :=
      Numeral.head?_body (Layout.wellFormed_finite Layout.printed z)
    rw [heq] at hdigit
    obtain rfl := Option.some.inj hdigit
    simp at hisDigit
  cases hinfiniteX : x.isInfinite <;> cases hinfiniteY : y.isInfinite
  · rw [text, text, hx, hy, hinfiniteX, hinfiniteY] at htext
    have hnumerals : Layout.printed.finite x = Layout.printed.finite y :=
      Numeral.chars_injective (Layout.wellFormed_finite _ x)
        (Layout.wellFormed_finite _ y) (by simpa using congrArg String.toList htext)
    exact Layout.finite_injective hnumerals
  · rw [toList_text_of_finite hx hinfiniteX, toList_text_of_infinite hy hinfiniteY] at hlist
    exact absurd (Numeral.sign_unique _ _ (hbody x) hinf hlist).2 (hapart x)
  · rw [toList_text_of_infinite hx hinfiniteX, toList_text_of_finite hy hinfiniteY] at hlist
    exact absurd (Numeral.sign_unique _ _ hinf (hbody y) hlist).2.symm (hapart y)
  · rw [toList_text_of_infinite hx hinfiniteX, toList_text_of_infinite hy hinfiniteY] at hlist
    have hsign := (Numeral.sign_unique _ _ hinf hinf hlist).1
    apply eq_of_magnitude_eq hsign
    rw [magnitude_of_infinite hinfiniteX, magnitude_of_infinite hinfiniteY]

end Binary64

/-! ## Spelling of literals -/

namespace Literal

/-- Words that stand for a literal without beginning with a digit. -/
def names : List String := ["NULL", "TRUE", "FALSE", "NaN", "inf"]

def isWord (word : List Char) : Bool :=
  word.head?.any Char.isDigit || names.any (·.toList = word)

theorem isWord_of_digit {word : List Char} {c : Char} (hhead : word.head? = some c)
    (hc : c.isDigit) : isWord word = true := by
  simp [isWord, hhead, hc]

theorem head?_of_isWord {word : List Char} (hword : isWord word = true) :
    ∃ c, word.head? = some c ∧ c ≠ '-' := by
  rw [isWord, Bool.or_eq_true] at hword
  rcases hword with hdigit | hany
  · obtain ⟨c, hhead, hc⟩ := (Option.any_eq_true _ _).mp hdigit
    refine ⟨c, hhead, ?_⟩
    rintro rfl
    simp at hc
  · obtain ⟨name, hname, rfl⟩ : ∃ name ∈ names, name.toList = word := by
      simpa using hany
    simp only [names, List.mem_cons, List.not_mem_nil, or_false] at hname
    rcases hname with rfl | rfl | rfl | rfl | rfl <;> exact ⟨_, rfl, by decide⟩

/-- A literal is spelt as a word behind an optional sign. -/
structure Spelling (value : Literal) (signed : Bool) (word : List Char) : Prop where
  toList_text : value.text.toList = (if signed then ['-'] else []) ++ word
  isWord : Literal.isWord word = true
  plain : ∀ c ∈ word, Text.isPlain c = true
  negative : signed = true → value.isNegative = true

theorem spelling_int (value : Int64) :
    Spelling (.int value) (decide (value.toInt < 0))
      (Nat.toDigits 10 value.toInt.natAbs) where
  toList_text := by
    rw [text, toList_toString_int]
    simp
  isWord := by
    have hne : Nat.toDigits 10 value.toInt.natAbs ≠ [] := Nat.toDigits_ne_nil
    obtain ⟨c, rest, hdigits⟩ := List.exists_cons_of_ne_nil hne
    have hc : c ∈ Nat.toDigits 10 value.toInt.natAbs := by simp [hdigits]
    exact isWord_of_digit (by rw [hdigits]; rfl) (Numeral.isDigit_of_mem_toDigits hc)
  plain c hc := Text.isPlain_of_isDigit (Numeral.isDigit_of_mem_toDigits hc)
  negative hsign := by
    simpa [isNegative, Int64.lt_iff_toInt_lt] using hsign

theorem plain_of_mem_body {numeral : Numeral} (hnumeral : numeral.WellFormed) {c : Char}
    (hc : c ∈ numeral.whole ++ numeral.tail) : Text.isPlain c = true := by
  rcases Numeral.mem_body hnumeral hc with hdigit | rfl | rfl | rfl
  · exact Text.isPlain_of_isDigit hdigit
  · rfl
  · rfl
  · rfl

theorem exists_spelling_float (value : Binary64) :
    ∃ signed word, Spelling (.float value) signed word := by
  cases hnan : value.isNaN with
  | true =>
      refine ⟨false, ['N', 'a', 'N'], ?_, by decide, List.all_eq_true.mp rfl, by simp⟩
      simp [text, Binary64.text, hnan]
  | false =>
      cases hinfinite : value.isInfinite with
      | true =>
          exact ⟨value.isNegative, ['i', 'n', 'f'],
            Binary64.toList_text_of_infinite hnan hinfinite, by decide,
            List.all_eq_true.mp rfl, id⟩
      | false =>
          have hnumeral := Layout.wellFormed_finite Layout.printed value
          obtain ⟨c, hhead, hc⟩ := Numeral.head?_body hnumeral
          exact ⟨value.isNegative, _, Binary64.toList_text_of_finite hnan hinfinite,
            isWord_of_digit hhead hc, fun c hc => plain_of_mem_body hnumeral hc, id⟩

theorem plain_of_mem_upperHex {bytes : List UInt8} {c : Char}
    (hc : c ∈ Text.upperHex bytes) : Text.isPlain c = true := by
  have hdigit : ∀ n < 16, Text.isPlain (Text.upperHexDigit n) = true := by decide
  induction bytes with
  | nil => simp [Text.upperHex] at hc
  | cons byte rest ih =>
      have hbyte := byte.toNat_lt
      rcases List.mem_cons.mp hc with rfl | hc
      · exact hdigit _ (by omega)
      · rcases List.mem_cons.mp hc with rfl | hc
        · exact hdigit _ (by omega)
        · exact ih hc

theorem exists_spelling {value : Literal} (hvalue : ∀ s, value ≠ .string s) :
    ∃ signed word, Spelling value signed word := by
  cases value with
  | null =>
      exact ⟨false, "NULL".toList, by simp [text], by decide,
        List.all_eq_true.mp rfl, by simp⟩
  | bool value =>
      cases value with
      | true =>
          exact ⟨false, "TRUE".toList, by simp [text], by decide,
            List.all_eq_true.mp rfl, by simp⟩
      | false =>
          exact ⟨false, "FALSE".toList, by simp [text], by decide,
            List.all_eq_true.mp rfl, by simp⟩
  | int value => exact ⟨_, _, spelling_int value⟩
  | float value => exact exists_spelling_float value
  | string s => exact absurd rfl (hvalue s)
  | bytes bytes =>
      refine ⟨false, '0' :: 'x' :: Text.upperHex bytes, by simp [text], rfl, ?_, by simp⟩
      intro c hc
      rcases List.mem_cons.mp hc with rfl | hc
      · rfl
      · rcases List.mem_cons.mp hc with rfl | hc
        · rfl
        · exact plain_of_mem_upperHex hc

/-! ## Literals from their texts -/

/-- The literal with all NaNs made one. -/
def bare : Literal → Literal
  | float value => .float (if value.isNaN then .quietNaN else value)
  | value => value

/-- The constructor that a text shows. -/
def form (text : List Char) : Nat :=
  if text.head? = some '\'' then 4
  else if 'x' ∈ text then 5
  else if text = "NULL".toList then 0
  else if text = "TRUE".toList ∨ text = "FALSE".toList then 1
  else if text.all fun c => c.isDigit || c = '-' then 2
  else 3

theorem form_of_numeric {text : List Char}
    (htext : ∀ c ∈ text, c.isDigit ∨ c = '-' ∨ c = '.' ∨ c = 'e') :
    form text = if text.all fun c => c.isDigit || c = '-' then 2 else 3 := by
  have habsent : ∀ c : Char,
      ¬ (c.isDigit ∨ c = '-' ∨ c = '.' ∨ c = 'e') → c ∉ text :=
    fun c hc hmem => hc (htext c hmem)
  have hquote : text.head? ≠ some '\'' :=
    fun hhead => habsent '\'' (by decide) (List.mem_of_mem_head? hhead)
  have hname : ∀ (name : List Char) (c : Char), c ∈ name →
      ¬ (c.isDigit ∨ c = '-' ∨ c = '.' ∨ c = 'e') → text ≠ name := by
    rintro name c hmem hc rfl
    exact habsent c hc hmem
  have hflags : ¬ (text = "TRUE".toList ∨ text = "FALSE".toList) := by
    rintro (hlist | hlist)
    · exact hname _ 'T' (by decide) (by decide) hlist
    · exact hname _ 'F' (by decide) (by decide) hlist
  rw [form, if_neg hquote, if_neg (habsent 'x' (by decide)),
    if_neg (hname _ 'N' (by decide) (by decide)), if_neg hflags]

theorem mem_text_int {value : Int64} {c : Char} (hc : c ∈ (int value).text.toList) :
    c.isDigit ∨ c = '-' := by
  rw [(spelling_int value).toList_text] at hc
  rcases List.mem_append.mp hc with hc | hc
  · split at hc <;> simp_all
  · exact .inl (Numeral.isDigit_of_mem_toDigits hc)

theorem form_int (value : Int64) : form (int value).text.toList = 2 := by
  have hchars : ∀ c ∈ (int value).text.toList, c.isDigit ∨ c = '-' := fun _ => mem_text_int
  have hall : (int value).text.toList.all fun c => c.isDigit || c = '-' := by
    simpa using hchars
  rw [form_of_numeric fun c hc => (hchars c hc).imp id .inl, if_pos hall]

theorem form_float (value : Binary64) : form (float value).text.toList = 3 := by
  cases hnan : value.isNaN with
  | true =>
      have htext : (float value).text.toList = ['N', 'a', 'N'] := by
        simp [text, Binary64.text, hnan]
      rw [htext]
      decide
  | false =>
      cases hinfinite : value.isInfinite with
      | true =>
          have htext : (float value).text.toList = _ :=
            Binary64.toList_text_of_infinite hnan hinfinite
          rw [htext]
          cases value.isNegative <;> decide
      | false =>
          have htext : (float value).text.toList = _ :=
            Binary64.toList_text_of_finite hnan hinfinite
          have hnumeral := Layout.wellFormed_finite Layout.printed value
          rw [htext, form_of_numeric, if_neg]
          · intro hall
            obtain ⟨c, hc, hpoint⟩ := Numeral.exists_mem_tail
              (Layout.finite_point_or_exponent Layout.printed value)
            have hdigit := List.all_eq_true.mp hall c
              (List.mem_append_right _ (List.mem_append_right _ hc))
            rcases hpoint with rfl | rfl <;> simp at hdigit
          · intro c hc
            rcases List.mem_append.mp hc with hc | hc
            · split at hc <;> simp_all
            · exact Numeral.mem_body hnumeral hc

theorem form_text (value : Literal) :
    form value.text.toList =
      match value with
      | null => 0
      | bool _ => 1
      | int _ => 2
      | float _ => 3
      | string _ => 4
      | bytes _ => 5 := by
  cases value with
  | null => decide
  | bool value => cases value <;> decide
  | int value => exact form_int value
  | float value => exact form_float value
  | string s =>
      have hhead : (string s).text.toList.head? = some '\'' := by
        simp [text, Text.quoted]
      rw [form, if_pos hhead]
  | bytes bytes =>
      have htext : (Literal.bytes bytes).text.toList =
          '0' :: 'x' :: Text.upperHex bytes := by
        simp [text]
      rw [htext]
      simp [form]

theorem upperHex_injective {as bs : List UInt8} (heq : Text.upperHex as = Text.upperHex bs) :
    as = bs := by
  have hdigit : ∀ m < 16, ∀ n < 16,
      Text.upperHexDigit m = Text.upperHexDigit n → m = n := by decide
  induction as generalizing bs with
  | nil => cases bs <;> simp_all [Text.upperHex]
  | cons a as ih =>
      cases bs with
      | nil => simp [Text.upperHex] at heq
      | cons b bs =>
          simp only [Text.upperHex, List.cons.injEq] at heq
          obtain ⟨hhigh, hlow, hrest⟩ := heq
          have ha := a.toNat_lt
          have hb := b.toNat_lt
          have hhigh := hdigit _ (by omega) _ (by omega) hhigh
          have hlow := hdigit _ (by omega) _ (by omega) hlow
          have hbyte : a = b := UInt8.toNat_inj.mp (by omega)
          rw [hbyte, ih hrest]

theorem int_injective {a b : Int64} (htext : (int a).text = (int b).text) : a = b := by
  have hhead : ∀ n : Nat, ∀ c ∈ (Nat.toDigits 10 n).head?, c ≠ '-' := by
    rintro n c hc rfl
    have hdigit := Numeral.isDigit_of_mem_toDigits (List.mem_of_mem_head? hc)
    simp at hdigit
  have hlist := congrArg String.toList htext
  rw [(spelling_int a).toList_text, (spelling_int b).toList_text] at hlist
  obtain ⟨hsign, hdigits⟩ := Numeral.sign_unique _ _ (hhead _) (hhead _) hlist
  have habs := Numeral.toDigits_injective hdigits
  rw [decide_eq_decide] at hsign
  have hvalue : a.toInt = b.toInt := by omega
  exact Int64.toInt_inj.mp hvalue

theorem bare_float_eq {a b : Binary64} (htext : a.text = b.text) :
    (float a).bare = (float b).bare := by
  have hnan : ∀ x y : Binary64, x.text = y.text → x.isNaN = true → y.isNaN = true := by
    intro x y htext hx
    have hword : x.text = "NaN" := by simp [Binary64.text, hx]
    exact Binary64.isNaN_of_text_eq (htext.symm.trans hword)
  rw [bare, bare]
  cases ha : a.isNaN with
  | true =>
      rw [hnan a b htext ha]
      rfl
  | false =>
      cases hb : b.isNaN with
      | true =>
          have hnone := hnan b a htext.symm hb
          rw [ha] at hnone
          cases hnone
      | false => rw [Binary64.text_injective ha hb htext]

/-- The text of a literal determines it, up to the patterns of NaN. -/
theorem text_injective {a b : Literal} (htext : a.text = b.text) : a.bare = b.bare := by
  have hform : form a.text.toList = form b.text.toList := by rw [htext]
  have hlist := congrArg String.toList htext
  rw [form_text, form_text] at hform
  cases a with
  | null => cases b <;> first | rfl | cases hform
  | bool a =>
      cases b with
      | bool b => cases a <;> cases b <;> first | rfl | exact absurd htext (by decide)
      | _ => cases hform
  | int a =>
      cases b with
      | int b => rw [int_injective htext]
      | _ => cases hform
  | float a =>
      cases b with
      | float b => exact bare_float_eq htext
      | _ => cases hform
  | string a =>
      cases b with
      | string b =>
          have hdoubled : Text.doubled a.toList ++ ['\''] =
              Text.doubled b.toList ++ ['\''] := by
            simpa [text, Text.quoted] using hlist
          obtain ⟨hchars, -⟩ := Text.doubled_unique (by simp) (by simp) hdoubled
          rw [String.toList_inj.mp hchars]
      | _ => cases hform
  | bytes a =>
      cases b with
      | bytes b =>
          have hhex : Text.upperHex a = Text.upperHex b := by
            simpa [text] using hlist
          rw [upperHex_injective hhex]
      | _ => cases hform

end Literal

end QueryPlan
