import QueryPlan.Proofs.Toml.Quoting
import QueryPlan.Proofs.Toml.Scalars
import QueryPlan.Toml.Reader

/-!
# Reading statements back

A document of headers and entries with plain keys, one on each line, is read back statement by
statement, if each value is read back where its line ends.  Strings, natural numbers and truth
values are, in the form that they are written.
-/

namespace QueryPlan.Toml.Reader

/-! ## Keys -/

/-- Keys that are written without quotes. -/
def IsBareKey (key : String) : Prop :=
  key.toList ≠ [] ∧ key.toList.all isBareKeyChar = true

instance (key : String) : Decidable (IsBareKey key) :=
  inferInstanceAs (Decidable (key.toList ≠ [] ∧ key.toList.all isBareKeyChar = true))

/-- Characters with which a comment or space between statements begins. -/
def spaces : List Char := ['#', ' ', '\t', '\n', '\r']

/-- Characters with which something other than a plain key begins. -/
def marks : List Char := ['"', '\'', '[', '\ufeff'] ++ spaces

theorem not_mem_marks {c : Char} (hc : isBareKeyChar c = true) : c ∉ marks := by
  have hmarks : marks.all (!isBareKeyChar ·) = true := by decide
  intro hmark
  have hnot := List.all_eq_true.mp hmarks c hmark
  simp [hc] at hnot

namespace IsBareKey

variable {key : String}

theorem isBareKeyChar_of_mem (hkey : IsBareKey key) : ∀ c ∈ key.toList, isBareKeyChar c = true :=
  List.all_eq_true.mp hkey.2

theorem exists_cons (hkey : IsBareKey key) :
    ∃ c rest, key.toList = c :: rest ∧ c ∉ marks := by
  obtain ⟨c, rest, heq⟩ := List.exists_cons_of_ne_nil hkey.1
  exact ⟨c, rest, heq, not_mem_marks (hkey.isBareKeyChar_of_mem c (heq ▸ List.mem_cons_self))⟩

theorem readSimpleKey_eq (hkey : IsBareKey key) {c : Char} (hc : isBareKeyChar c = false)
    (rest : List Char) :
    readSimpleKey (key.toList ++ c :: rest) = some (key, c :: rest) := by
  have htake : (key.toList ++ c :: rest).takeWhile isBareKeyChar = key.toList := by
    rw [List.takeWhile_append_of_pos hkey.isBareKeyChar_of_mem,
      List.takeWhile_cons_of_neg (by simp [hc]), List.append_nil]
  have hdrop : (key.toList ++ c :: rest).dropWhile isBareKeyChar = c :: rest := by
    rw [List.dropWhile_append_of_pos hkey.isBareKeyChar_of_mem,
      List.dropWhile_cons_of_neg (by simp [hc])]
  obtain ⟨first, others, heq, hfirst⟩ := hkey.exists_cons
  rw [readSimpleKey, htake, hdrop]
  · simp [heq, ← String.toList_inj]
  all_goals
    rintro _ hquote
    rw [heq] at hquote
    exact hfirst ((List.cons.inj hquote).1 ▸ by decide)

/-- A plain key ends where no point follows. -/
theorem readKey_eq (hkey : IsBareKey key) {c d : Char} {rest after : List Char}
    (hc : isBareKeyChar c = false) (hskip : skipBlanks (c :: rest) = d :: after) (hd : d ≠ '.') :
    readKey (key.toList ++ c :: rest) = some ([key], d :: after) := by
  rw [readKey, deepest, readParts, hkey.readSimpleKey_eq hc]
  simp only [Option.bind_eq_bind, Option.bind_some, hskip]
  split
  · next heq => exact absurd (List.cons.inj heq).1 hd
  · rfl

end IsBareKey

/-! ## Values -/

/-- The text is read as the value where its line ends, and blanks before it do not matter. -/
structure Spells (text : List Char) (value : Value) : Prop where
  reads : ∀ fuel levels rest,
    readValue (fuel + 1) levels (text ++ '\n' :: rest) = some (value, '\n' :: rest)
  head_not_blank : ∀ c ∈ text.head?, isBlank c = false

theorem readValue_quote {c : Char} (hc : c = '"' ∨ c = '\'') (fuel levels : Nat)
    (rest : List Char) :
    readValue (fuel + 1) levels (c :: rest)
      = (Quoting.read (c :: rest)).map fun (string, rest) =>
        (.string (String.ofList string), rest) := by
  have hbracket : c ≠ '[' ∧ c ≠ '\x7b' := by obtain rfl | rfl := hc <;> decide
  rw [readValue, if_pos hc] <;> simp [hbracket]

theorem readValue_word {c : Char} (hc : c ∉ ['[', '\x7b', '"', '\'']) (fuel levels : Nat)
    (rest : List Char) :
    readValue (fuel + 1) levels (c :: rest) = Scalar.read (c :: rest) := by
  simp only [List.mem_cons, List.not_mem_nil, or_false, not_or] at hc
  rw [readValue, if_neg (by simp [hc])] <;> simp [hc]

/-- A scalar begins with neither a bracket nor a quote. -/
theorem Spells.of_word {c : Char} {word : List Char} {value : Value}
    (hc : c ∉ ['[', '\x7b', '"', '\''] ∧ isBlank c = false)
    (hread : ∀ rest, Scalar.read (c :: word ++ '\n' :: rest) = some (value, '\n' :: rest)) :
    Spells (c :: word) value where
  reads fuel levels rest := (readValue_word hc.1 fuel levels _).trans (hread rest)
  head_not_blank _ hhead := Option.some.inj hhead ▸ hc.2

theorem spells_toDigits (n : Nat) :
    Spells (Nat.toDigits 10 n) (.integer (Nat.toDigits 10 n)) := by
  have hread := Scalar.read_toDigits n
  have hdigits := Number.isDigit_toDigits n
  obtain ⟨c, word, heq⟩ := List.exists_cons_of_ne_nil (Nat.toDigits_ne_nil (n := n) (b := 10))
  rw [heq] at hread hdigits ⊢
  exact .of_word (Number.forall_digit
    (p := fun c => c ∉ ['[', '\x7b', '"', '\''] ∧ isBlank c = false) (by decide)
    (hdigits c List.mem_cons_self)) hread

theorem spells_boolean (value : Bool) :
    Spells (if value then "true" else "false").toList (.boolean value) := by
  have hread := Scalar.read_boolean value
  cases value <;> exact .of_word (by decide) hread

theorem spells_write (text : String) :
    Spells (Quoting.write text.toList) (.string text) := by
  obtain ⟨c, written, heq, hc⟩ := Quoting.exists_write_eq_cons text.toList
  have hread : ∀ rest, Quoting.read (c :: written ++ '\n' :: rest)
      = some (text.toList, '\n' :: rest) := fun rest =>
    heq ▸ Quoting.read_write text.toList (by simp) (by simp)
  rw [heq]
  constructor
  · intro fuel levels rest
    rw [List.cons_append, readValue_quote hc, ← List.cons_append, hread]
    simp
  · intro first hfirst
    obtain rfl : c = first := Option.some.inj hfirst
    obtain rfl | rfl := hc <;> rfl

/-! ## Statements -/

theorem skipBlanks_cons {c : Char} (hc : isBlank c = false) (rest : List Char) :
    skipBlanks (c :: rest) = c :: rest :=
  List.dropWhile_cons_of_neg (by simp [hc])

theorem isBlank_of_not_mem_marks {c : Char} (hc : c ∉ marks) : isBlank c = false := by
  have hspace : c ≠ ' ' := fun h => hc (h ▸ by decide)
  have htab : c ≠ '\t' := fun h => hc (h ▸ by decide)
  simp [isBlank, hspace, htab]

theorem readHeader_bare {name : String} (hname : IsBareKey name) (rest : List Char) :
    readHeader (name.toList ++ ']' :: rest) = some ([name], rest) := by
  have hkey : readKey (name.toList ++ ']' :: rest) = some ([name], ']' :: rest) :=
    hname.readKey_eq (by decide) rfl (by decide)
  obtain ⟨c, others, heq, hc⟩ := hname.exists_cons
  have hskip : skipBlanks (name.toList ++ ']' :: rest) = name.toList ++ ']' :: rest := by
    rw [heq]
    exact skipBlanks_cons (isBlank_of_not_mem_marks hc) _
  rw [readHeader, hskip, hkey]
  rfl

theorem readStatement_header {name : String} (hname : IsBareKey name) (rest : List Char) :
    readStatement ('[' :: (name.toList ++ ']' :: '\n' :: rest)) = some (.header [name], rest) := by
  obtain ⟨c, others, heq, hc⟩ := hname.exists_cons
  rw [readStatement, readHeader_bare hname]
  · rfl
  · intro after hafter
    rw [heq] at hafter
    exact hc ((List.cons.inj hafter).1 ▸ by decide)

theorem Spells.skipBlanks_eq {written : List Char} {value : Value}
    (hvalue : Spells written value) (rest : List Char) :
    skipBlanks (' ' :: (written ++ '\n' :: rest)) = written ++ '\n' :: rest := by
  change skipBlanks (written ++ '\n' :: rest) = _
  cases written with
  | nil => rfl
  | cons c written => exact skipBlanks_cons (hvalue.head_not_blank c rfl) _

theorem readStatement_entry {key : String} (hkey : IsBareKey key) {written : List Char}
    {value : Value} (hvalue : Spells written value) (rest : List Char) :
    readStatement (key.toList ++ ' ' :: '=' :: ' ' :: (written ++ '\n' :: rest))
      = some (.entry [key] value, rest) := by
  have hread : readKey (key.toList ++ ' ' :: '=' :: ' ' :: (written ++ '\n' :: rest))
      = some ([key], '=' :: ' ' :: (written ++ '\n' :: rest)) :=
    hkey.readKey_eq (by decide) rfl (by decide)
  obtain ⟨c, others, heq, hc⟩ := hkey.exists_cons
  have hbracket : c ≠ '[' := fun h => hc (h ▸ by decide)
  rw [readStatement, hread]
  · simp only [Option.bind_eq_bind, Option.bind_some, hvalue.skipBlanks_eq, hvalue.reads]
    rfl
  all_goals
    intro after hafter
    rw [heq] at hafter
    exact hbracket (List.cons.inj hafter).1

/-! ## Rows of statements -/

/-- The text of headers and entries, one on each line, with any number of empty lines. -/
inductive Rows : List Char → List Statement → Prop
  | nil : Rows [] []
  | newline {text : List Char} {statements : List Statement} (hrest : Rows text statements) :
      Rows ('\n' :: text) statements
  | header {name : String} (hname : IsBareKey name) {text : List Char}
      {statements : List Statement} (hrest : Rows text statements) :
      Rows ('[' :: (name.toList ++ ']' :: '\n' :: text)) (.header [name] :: statements)
  | entry {key : String} (hkey : IsBareKey key) {written : List Char} {value : Value}
      (hvalue : Spells written value) {text : List Char} {statements : List Statement}
      (hrest : Rows text statements) :
      Rows (key.toList ++ ' ' :: '=' :: ' ' :: (written ++ '\n' :: text))
        (.entry [key] value :: statements)

theorem skipSpace_cons {c : Char} (hc : c ∉ spaces) (rest : List Char) :
    skipSpace false (c :: rest) = some (c :: rest) := by
  simp only [spaces, List.mem_cons, List.not_mem_nil, or_false, not_or] at hc
  rw [skipSpace] <;> simp [isBlank, hc]

theorem readStatements_cons {c : Char} {text rest : List Char} {statement : Statement}
    {statements : List Statement} {fuel : Nat}
    (hc : c ∉ spaces)
    (hfirst : readStatement (c :: text) = some (statement, rest))
    (hrest : readStatements fuel rest = some statements) :
    readStatements (fuel + 1) (c :: text) = some (statement :: statements) := by
  simp [readStatements, skipSpace_cons hc, hfirst, hrest]

theorem Rows.readStatements_eq {text : List Char} {statements : List Statement}
    (hrows : Rows text statements) {fuel : Nat} (hfuel : text.length < fuel) :
    readStatements fuel text = some statements := by
  induction hrows generalizing fuel with
  | nil =>
      obtain ⟨fuel, rfl⟩ : ∃ n, fuel = n + 1 := ⟨fuel - 1, by omega⟩
      rfl
  | newline _ ih =>
      simp only [List.length_cons] at hfuel
      have hread := ih (Nat.lt_of_succ_lt hfuel)
      obtain ⟨fuel, rfl⟩ : ∃ n, fuel = n + 1 := ⟨fuel - 1, by omega⟩
      exact hread
  | header hname _ ih =>
      simp only [List.length_cons, List.length_append] at hfuel
      obtain ⟨fuel, rfl⟩ : ∃ n, fuel = n + 1 := ⟨fuel - 1, by omega⟩
      exact readStatements_cons (by decide) (readStatement_header hname _) (ih (by omega))
  | @entry key hkey written value hvalue text _ _ ih =>
      simp only [List.length_cons, List.length_append] at hfuel
      obtain ⟨fuel, rfl⟩ : ∃ n, fuel = n + 1 := ⟨fuel - 1, by omega⟩
      have hread := readStatement_entry hkey hvalue text
      obtain ⟨c, others, heq, hc⟩ := hkey.exists_cons
      rw [heq] at hread ⊢
      exact readStatements_cons (fun h => hc (List.mem_append_right _ h)) hread (ih (by omega))

theorem Rows.dropMark_eq {text : List Char} {statements : List Statement}
    (hrows : Rows text statements) : dropMark text = text := by
  cases hrows with
  | nil | newline _ | header _ _ => rfl
  | entry hkey _ _ =>
      obtain ⟨c, others, heq, hc⟩ := hkey.exists_cons
      rw [heq, List.cons_append, dropMark]
      intro _ hmark
      exact hc ((List.cons.inj hmark).1 ▸ by decide)

theorem Rows.read?_eq {text : List Char} {statements : List Statement}
    (hrows : Rows text statements) :
    read? (String.ofList text) = Entries.ofStatements? statements := by
  simp [read?, hrows.dropMark_eq, hrows.readStatements_eq (Nat.lt_succ_self _)]

end QueryPlan.Toml.Reader
