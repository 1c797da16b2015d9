import Mathlib.Data.List.Basic
import QueryPlan.Toml.Quoting

/-!
# Reading quoted strings back

Every text is read back from the form that `write` takes for it.  The two basic forms hold any
text; the literal forms hold what `write` gives them, texts without control characters whose
apostrophes cannot be taken for the end.
-/

namespace QueryPlan.Toml.Quoting

/-! ## Single characters -/

/-- What stands after a backslash for a character. -/
def IsEscape (body : List Char) (c : Char) : Prop :=
  ∀ rest, readEscape (body ++ rest) = some (c, rest) ∧ skipLineEnd (body ++ rest) = none

theorem isEscape_quote : IsEscape ['"'] '"' := fun _ => ⟨rfl, rfl⟩

theorem hexNumber?_upperHexDigit {n : Nat} (hn : n < 128) :
    hexNumber? ['0', '0', Text.upperHexDigit (n / 16), Text.upperHexDigit (n % 16)] = some n := by
  revert n
  decide

theorem toNat_lt_of_not_isPlain {c : Char} (hcontrol : ¬ isPlain c) : c.toNat < 128 := by
  simp only [isPlain, Bool.or_eq_true, Bool.and_eq_true, decide_eq_true_eq, not_or, not_and,
    not_not] at hcontrol
  by_contra hlarge
  have hdelete := hcontrol.2 (by omega)
  omega

theorem isEscape_numbered {c : Char} (hcontrol : ¬ isPlain c) :
    IsEscape (numbered c).tail c := by
  intro rest
  refine ⟨?_, rfl⟩
  have hnumber := hexNumber?_upperHexDigit (toNat_lt_of_not_isPlain hcontrol)
  have hvalid : c.toNat.isValidChar := c.valid
  simp [numbered, readEscape, escapeWidth?, hnumber, char?, hvalid, Char.ofNat_toNat]

/-- A character other than a quote stands as it is or is escaped. -/
theorem escapeChar_cases (keepNewline : Bool) (c : Char) :
    (escapeChar keepNewline c = [c] ∧ c ≠ '\\' ∧ (isPlain c ∨ c = '\n' ∧ keepNewline)) ∨
      ∃ body, escapeChar keepNewline c = '\\' :: body ∧ IsEscape body c := by
  fun_cases escapeChar keepNewline c with
  | case1 c hnewline =>
      obtain ⟨rfl, hkeep⟩ := hnewline
      exact .inl ⟨rfl, by decide, .inr ⟨rfl, hkeep⟩⟩
  | case8 c hbackslash _ _ _ _ _ hplain => exact .inl ⟨rfl, hbackslash, .inl hplain⟩
  | case9 c _ _ _ _ _ _ hcontrol => exact .inr ⟨_, rfl, isEscape_numbered hcontrol⟩
  | _ => exact .inr ⟨_, rfl, fun _ => ⟨rfl, rfl⟩⟩

/-- A written text begins with a backslash or with its own first character. -/
theorem escapeFrom_cons_cases (keepNewline : Bool) (allowed run : Nat) (c : Char)
    (text : List Char) :
    ∃ first after, escapeFrom keepNewline allowed run (c :: text) = first :: after ∧
      (first = '\\' ∨ first = c ∧ (c = '"' → run < allowed) ∧ (isPlain c ∨ c = '\n')) := by
  rw [escapeFrom]
  split_ifs with hquote hallowed
  · exact ⟨'"', _, rfl, .inr ⟨hquote.symm, fun _ => hallowed, .inl (by rw [hquote]; decide)⟩⟩
  · exact ⟨'\\', _, rfl, .inl rfl⟩
  · obtain ⟨heq, -, hplain⟩ | ⟨body, heq, -⟩ := escapeChar_cases keepNewline c
    · rw [heq]
      exact ⟨c, _, rfl, .inr ⟨rfl, fun h => absurd h hquote, hplain.imp_right And.left⟩⟩
    · rw [heq]
      exact ⟨'\\', _, rfl, .inl rfl⟩

theorem length_le_length_escapeFrom (keepNewline : Bool) (allowed run : Nat)
    (text : List Char) : text.length ≤ (escapeFrom keepNewline allowed run text).length := by
  induction text generalizing run with
  | nil => exact Nat.zero_le _
  | cons c text ih =>
      have hone : 1 ≤ (escapeChar keepNewline c).length := by
        obtain ⟨heq, -⟩ | ⟨body, heq, -⟩ := escapeChar_cases keepNewline c <;> simp [heq]
      have hzero := ih 0
      have hsucc := ih (run + 1)
      rw [escapeFrom]
      split_ifs <;> simp only [List.length_cons, List.length_append] <;> omega

/-! ## Basic strings on one line -/

theorem readBasic_escape {body : List Char} {c : Char} (hbody : IsEscape body c) (fuel : Nat)
    (rest : List Char) :
    readBasic (fuel + 1) ('\\' :: body ++ rest) = (readBasic fuel rest).map (before c) := by
  rw [List.cons_append, readBasic, (hbody rest).1]
  rfl

theorem readBasic_plain {c : Char} (hquote : c ≠ '"') (hbackslash : c ≠ '\\')
    (hplain : isPlain c) (fuel : Nat) (rest : List Char) :
    readBasic (fuel + 1) (c :: rest) = (readBasic fuel rest).map (before c) := by
  rw [readBasic, if_pos hplain]
  · exact hquote
  · exact hbackslash

theorem readBasic_escapeChar {c : Char} (hquote : c ≠ '"') (fuel : Nat) (rest : List Char) :
    readBasic (fuel + 1) (escapeChar false c ++ rest)
      = (readBasic fuel rest).map (before c) := by
  obtain ⟨heq, hbackslash, hplain | ⟨-, hkeep⟩⟩ | ⟨body, heq, hbody⟩ :=
    escapeChar_cases false c
  · rw [heq]
    exact readBasic_plain hquote hbackslash hplain fuel rest
  · exact absurd hkeep Bool.false_ne_true
  · rw [heq]
    exact readBasic_escape hbody fuel rest

theorem readBasic_escapeFrom {fuel : Nat} (run : Nat) {text : List Char} (rest : List Char)
    (hfuel : text.length < fuel) :
    readBasic fuel (escapeFrom false 0 run text ++ '"' :: rest) = some (text, rest) := by
  induction text generalizing fuel run with
  | nil =>
      obtain ⟨fuel, rfl⟩ : ∃ n, fuel = n + 1 := ⟨fuel - 1, by omega⟩
      rfl
  | cons c text ih =>
      simp only [List.length_cons] at hfuel
      obtain ⟨fuel, rfl⟩ : ∃ n, fuel = n + 1 := ⟨fuel - 1, by omega⟩
      by_cases hquote : c = '"'
      · rw [escapeFrom, if_pos hquote, if_neg (Nat.not_lt_zero run), hquote]
        have hread := readBasic_escape isEscape_quote fuel
          (escapeFrom false 0 0 text ++ '"' :: rest)
        rw [ih 0 (by omega)] at hread
        exact hread
      · rw [escapeFrom, if_neg hquote, List.append_assoc, readBasic_escapeChar hquote,
          ih 0 (by omega)]
        rfl

/-! ## Literal strings on one line -/

theorem readLiteral_of_plain {text : List Char} (hplain : ∀ c ∈ text, isPlain c)
    (hquote : '\'' ∉ text) (rest : List Char) :
    readLiteral (text ++ '\'' :: rest) = some (text, rest) := by
  induction text with
  | nil => rfl
  | cons c text ih =>
      obtain ⟨hc, hothers⟩ := List.forall_mem_cons.mp hplain
      obtain ⟨hne, hnot⟩ := not_or.mp (mt List.mem_cons.mpr hquote)
      rw [List.cons_append, readLiteral, if_pos hc, ih hothers hnot]
      · rfl
      · exact Ne.symm hne

/-! ## Quotes at the end of long strings -/

/-- The three quotes that close a long string. -/
def closing (quote : Char) : List Char := List.replicate 3 quote

theorem takeWhile_replicate_append {quote : Char} (n : Nat) {rest : List Char}
    (hrest : rest.head? ≠ some quote) :
    (List.replicate n quote ++ rest).takeWhile (· = quote) = List.replicate n quote := by
  rw [List.takeWhile_append_of_pos (by simp)]
  cases rest with
  | nil => simp
  | cons c rest =>
      have hc : c ≠ quote := by simpa using hrest
      simp [hc]

/-- Up to two quotes before the closing ones belong to the text. -/
theorem closeQuotes_replicate {quote : Char} {kept : Nat} (hkept : kept ≤ 2)
    {rest : List Char} (hrest : rest.head? ≠ some quote) :
    closeQuotes quote (List.replicate kept quote ++ closing quote ++ rest)
      = some (List.replicate kept quote, rest) := by
  have hquotes : List.replicate kept quote ++ closing quote = List.replicate (kept + 3) quote :=
    List.replicate_append_replicate
  have hmin : min (kept + 3) 5 - 3 = kept := by omega
  rw [hquotes, closeQuotes, takeWhile_replicate_append _ hrest]
  simp [hmin]

theorem closeQuotes_closing {quote : Char} {rest : List Char}
    (hrest : rest.head? ≠ some quote) :
    closeQuotes quote (closing quote ++ rest) = some ([], rest) :=
  closeQuotes_replicate (Nat.zero_le 2) hrest

theorem closeQuotes_eq_none {quote : Char} {kept : Nat} (hkept : kept ≤ 2) {c : Char}
    (hc : c ≠ quote) (rest : List Char) :
    closeQuotes quote (List.replicate kept quote ++ c :: rest) = none := by
  have hfew : ¬ 3 ≤ kept := by omega
  rw [closeQuotes, takeWhile_replicate_append _ (by simpa using hc)]
  simp [hfew]

/-- After `run` quotes a written text goes on with so few others that no three stand in a row.
If there is nothing else in it, it is the text itself. -/
def FewQuotes (quote : Char) (run : Nat) (text written : List Char) : Prop :=
  ∃ kept, run + kept ≤ 2 ∧
    (written = List.replicate kept quote ∧ text = written ∨
      ∃ c rest, c ≠ quote ∧ written = List.replicate kept quote ++ c :: rest)

namespace FewQuotes

variable {quote : Char} {run : Nat} {text written : List Char}

theorem nil (hrun : run ≤ 2) : FewQuotes quote run [] [] :=
  ⟨0, hrun, .inl ⟨rfl, rfl⟩⟩

theorem cons_other (hrun : run ≤ 2) {c : Char} (hc : c ≠ quote) :
    FewQuotes quote run text (c :: written) :=
  ⟨0, hrun, .inr ⟨c, written, hc, rfl⟩⟩

theorem cons_quote (hfew : FewQuotes quote (run + 1) text written) :
    FewQuotes quote run (quote :: text) (quote :: written) := by
  obtain ⟨kept, hkept, ⟨rfl, rfl⟩ | ⟨c, rest, hc, rfl⟩⟩ := hfew
  · exact ⟨kept + 1, by omega, .inl ⟨rfl, rfl⟩⟩
  · exact ⟨kept + 1, by omega, .inr ⟨c, rest, hc, rfl⟩⟩

/-- The closing quotes are found only where the text ends. -/
theorem closeQuotes_eq (hfew : FewQuotes quote run text written) {rest : List Char}
    (hrest : rest.head? ≠ some quote) :
    closeQuotes quote (written ++ closing quote ++ rest) = some (text, rest) ∨
      closeQuotes quote (written ++ closing quote ++ rest) = none := by
  obtain ⟨kept, hkept, ⟨hwritten, rfl⟩ | ⟨c, after, hc, rfl⟩⟩ := hfew
  · rw [hwritten]
    exact .inl (closeQuotes_replicate (by omega) hrest)
  · rw [List.append_assoc, List.append_assoc]
    exact .inr (closeQuotes_eq_none (by omega) hc _)

end FewQuotes

theorem fewQuotes_escapeFrom {run : Nat} (hrun : run ≤ 2) (text : List Char) :
    FewQuotes '"' run text (escapeFrom true 2 run text) := by
  induction text generalizing run with
  | nil => exact .nil hrun
  | cons c text ih =>
      by_cases hallowed : c = '"' ∧ run < 2
      · obtain ⟨rfl, hallowed⟩ := hallowed
        rw [escapeFrom, if_pos rfl, if_pos hallowed]
        exact (ih hallowed).cons_quote
      · obtain ⟨first, after, heq, hfirst⟩ := escapeFrom_cons_cases true 2 run c text
        rw [heq]
        refine .cons_other hrun ?_
        obtain rfl | ⟨rfl, hquote, -⟩ := hfirst
        · decide
        · exact fun h => hallowed ⟨h, hquote h⟩

theorem longestRun_go_cons (quote : Char) (run : Nat) (c : Char) (text : List Char) :
    longestRun.go quote run (c :: text)
      = max run (longestRun.go quote (if c = quote then run + 1 else 0) text) := by
  rw [longestRun.go]
  split <;> rfl

theorem fewQuotes_of_longestRun {quote : Char} {run : Nat} {text : List Char}
    (hrun : longestRun.go quote run text ≤ 2) : FewQuotes quote run text text := by
  induction text generalizing run with
  | nil => exact .nil hrun
  | cons c text ih =>
      rw [longestRun_go_cons] at hrun
      by_cases hquote : c = quote
      · subst hquote
        rw [if_pos rfl] at hrun
        exact (ih (by omega)).cons_quote
      · exact .cons_other (by omega) hquote

theorem le_longestRun_go (quote : Char) (run : Nat) (text : List Char) :
    run ≤ longestRun.go quote run text := by
  cases text with
  | nil => exact Nat.le_refl run
  | cons c text =>
      rw [longestRun_go_cons]
      exact Nat.le_max_left _ _

theorem not_mem_of_longestRun_eq_zero {quote : Char} {text : List Char}
    (hrun : longestRun quote text = 0) : quote ∉ text := by
  change longestRun.go quote 0 text = 0 at hrun
  induction text with
  | nil => exact List.not_mem_nil
  | cons c text ih =>
      rw [longestRun_go_cons] at hrun
      by_cases hquote : c = quote
      · rw [if_pos hquote] at hrun
        have hrest := le_longestRun_go quote (0 + 1) text
        omega
      · rw [if_neg hquote] at hrun
        exact List.not_mem_cons_of_ne_of_not_mem (Ne.symm hquote) (ih (by omega))

/-! ## Basic strings on several lines -/

theorem readLongBasic_escape {body : List Char} {c : Char} (hbody : IsEscape body c)
    (fuel : Nat) (rest : List Char) :
    readLongBasic (fuel + 1) ('\\' :: body ++ rest)
      = (readLongBasic fuel rest).map (before c) := by
  rw [List.cons_append, readLongBasic, (hbody rest).2, (hbody rest).1]
  rfl

theorem readLongBasic_plain {c : Char} (hquote : c ≠ '"') (hbackslash : c ≠ '\\')
    (hplain : isPlain c ∨ c = '\n') (fuel : Nat) (rest : List Char) :
    readLongBasic (fuel + 1) (c :: rest) = (readLongBasic fuel rest).map (before c) := by
  rw [readLongBasic, if_pos (by simpa using hplain)]
  · exact hquote
  · exact hbackslash
  · rintro rest rfl
    exact absurd hplain (by decide)

theorem readLongBasic_escapeChar {c : Char} (hquote : c ≠ '"') (fuel : Nat)
    (rest : List Char) :
    readLongBasic (fuel + 1) (escapeChar true c ++ rest)
      = (readLongBasic fuel rest).map (before c) := by
  obtain ⟨heq, hbackslash, hplain⟩ | ⟨body, heq, hbody⟩ := escapeChar_cases true c
  · rw [heq]
    exact readLongBasic_plain hquote hbackslash (hplain.imp_right And.left) fuel rest
  · rw [heq]
    exact readLongBasic_escape hbody fuel rest

theorem readLongBasic_closed {written : List Char} {result : List Char × List Char}
    (hclose : closeQuotes '"' ('"' :: written) = some result) (fuel : Nat) :
    readLongBasic (fuel + 1) ('"' :: written) = some result := by
  rw [readLongBasic, hclose]

theorem readLongBasic_open {written : List Char}
    (hclose : closeQuotes '"' ('"' :: written) = none) (fuel : Nat) :
    readLongBasic (fuel + 1) ('"' :: written) = (readLongBasic fuel written).map (before '"') := by
  rw [readLongBasic, hclose]

theorem readLongBasic_escapeFrom {fuel run : Nat} (hrun : run ≤ 2) {text rest : List Char}
    (hrest : rest.head? ≠ some '"') (hfuel : text.length < fuel) :
    readLongBasic fuel (escapeFrom true 2 run text ++ closing '"' ++ rest)
      = some (text, rest) := by
  induction text generalizing fuel run with
  | nil =>
      obtain ⟨fuel, rfl⟩ : ∃ n, fuel = n + 1 := ⟨fuel - 1, by omega⟩
      exact readLongBasic_closed (closeQuotes_closing hrest) fuel
  | cons c text ih =>
      simp only [List.length_cons] at hfuel
      obtain ⟨fuel, rfl⟩ : ∃ n, fuel = n + 1 := ⟨fuel - 1, by omega⟩
      by_cases hquote : c = '"'
      · subst hquote
        have hclose := (fewQuotes_escapeFrom hrun ('"' :: text)).closeQuotes_eq hrest
        by_cases hallowed : run < 2
        · rw [escapeFrom, if_pos rfl, if_pos hallowed] at hclose ⊢
          obtain hclose | hclose := hclose
          · exact readLongBasic_closed hclose fuel
          · exact (readLongBasic_open hclose fuel).trans
              (congrArg (Option.map (before '"')) (ih hallowed (by omega)))
        · rw [escapeFrom, if_pos rfl, if_neg hallowed]
          have hread := readLongBasic_escape isEscape_quote fuel
            (escapeFrom true 2 0 text ++ closing '"' ++ rest)
          rw [ih (by omega) (by omega)] at hread
          exact hread
      · rw [escapeFrom, if_neg hquote, List.append_assoc, List.append_assoc,
          readLongBasic_escapeChar hquote, ← List.append_assoc, ih (by omega) (by omega)]
        rfl

/-! ## Literal strings on several lines -/

theorem readLongLiteral_closed {written : List Char} {result : List Char × List Char}
    (hclose : closeQuotes '\'' ('\'' :: written) = some result) (fuel : Nat) :
    readLongLiteral (fuel + 1) ('\'' :: written) = some result := by
  rw [readLongLiteral, hclose]

theorem readLongLiteral_open {written : List Char}
    (hclose : closeQuotes '\'' ('\'' :: written) = none) (fuel : Nat) :
    readLongLiteral (fuel + 1) ('\'' :: written)
      = (readLongLiteral fuel written).map (before '\'') := by
  rw [readLongLiteral, hclose]

theorem readLongLiteral_plain {c : Char} (hquote : c ≠ '\'') (hplain : isPlain c ∨ c = '\n')
    (fuel : Nat) (rest : List Char) :
    readLongLiteral (fuel + 1) (c :: rest) = (readLongLiteral fuel rest).map (before c) := by
  rw [readLongLiteral, if_pos (by simpa using hplain)]
  · exact hquote
  · rintro rest rfl
    exact absurd hplain (by decide)

theorem readLongLiteral_of_longestRun {fuel run : Nat} {text rest : List Char}
    (hplain : ∀ c ∈ text, isPlain c ∨ c = '\n') (hrun : longestRun.go '\'' run text ≤ 2)
    (hrest : rest.head? ≠ some '\'') (hfuel : text.length < fuel) :
    readLongLiteral fuel (text ++ closing '\'' ++ rest) = some (text, rest) := by
  induction text generalizing fuel run with
  | nil =>
      obtain ⟨fuel, rfl⟩ : ∃ n, fuel = n + 1 := ⟨fuel - 1, by omega⟩
      exact readLongLiteral_closed (closeQuotes_closing hrest) fuel
  | cons c text ih =>
      simp only [List.length_cons] at hfuel
      obtain ⟨fuel, rfl⟩ : ∃ n, fuel = n + 1 := ⟨fuel - 1, by omega⟩
      obtain ⟨hc, hothers⟩ := List.forall_mem_cons.mp hplain
      have hclose := (fewQuotes_of_longestRun hrun).closeQuotes_eq hrest
      rw [longestRun_go_cons] at hrun
      have hread : readLongLiteral fuel (text ++ closing '\'' ++ rest) = some (text, rest) :=
        ih hothers (Nat.le_trans (Nat.le_max_right _ _) hrun) (by omega)
      by_cases hquote : c = '\''
      · subst hquote
        obtain hclose | hclose := hclose
        · exact readLongLiteral_closed hclose fuel
        · exact (readLongLiteral_open hclose fuel).trans
            (congrArg (Option.map (before '\'')) hread)
      · exact (readLongLiteral_plain hquote hc fuel _).trans
          (congrArg (Option.map (before c)) hread)

/-! ## The four forms -/

theorem read_writeBasic (text : List Char) {rest : List Char} (hrest : rest.head? ≠ some '"') :
    read (writeBasic text ++ rest) = some (text, rest) := by
  have hbody : writeBasic text ++ rest = '"' :: (escapeFrom false 0 0 text ++ '"' :: rest) := by
    simp [writeBasic]
  have hlength := length_le_length_escapeFrom false 0 0 text
  rw [hbody, read]
  · exact readBasic_escapeFrom 0 rest
      (by simp only [List.length_append, List.length_cons]; omega)
  · -- Neither the empty text nor a quote at the beginning opens a long string.
    intro after hafter
    cases text with
    | nil =>
        obtain ⟨-, rfl⟩ := List.cons.inj hafter
        exact hrest rfl
    | cons c text =>
        obtain ⟨first, others, heq, hfirst⟩ := escapeFrom_cons_cases false 0 0 c text
        rw [heq] at hafter
        obtain ⟨rfl, -⟩ := List.cons.inj hafter
        obtain hfirst | ⟨rfl, hquote, -⟩ := hfirst
        · exact absurd hfirst (by decide)
        · exact absurd (hquote rfl) (Nat.not_lt_zero 0)

theorem read_writeLiteral {text : List Char} (hplain : ∀ c ∈ text, isPlain c)
    (hquote : '\'' ∉ text) {rest : List Char} (hrest : rest.head? ≠ some '\'') :
    read (writeLiteral text ++ rest) = some (text, rest) := by
  have hbody : writeLiteral text ++ rest = '\'' :: (text ++ '\'' :: rest) := by
    simp [writeLiteral]
  rw [hbody, read]
  · exact readLiteral_of_plain hplain hquote rest
  · intro after hafter
    cases text with
    | nil =>
        obtain ⟨-, rfl⟩ := List.cons.inj hafter
        exact hrest rfl
    | cons c text =>
        obtain ⟨rfl, -⟩ := List.cons.inj hafter
        exact hquote List.mem_cons_self

/-- A line break is dropped exactly where one was put. -/
theorem trimNewline_leadingNewline {text written : List Char}
    (hhead : '\n' ∉ text → ∀ c ∈ written.head?, c ≠ '\n' ∧ c ≠ '\r') :
    trimNewline (leadingNewline text ++ written) = written := by
  by_cases hnewline : '\n' ∈ text
  · simp [leadingNewline, hnewline, trimNewline, dropNewline?]
  · rw [leadingNewline, if_neg (by simpa using hnewline), List.nil_append]
    cases written with
    | nil => rfl
    | cons c written =>
        obtain ⟨hfeed, hreturn⟩ := hhead hnewline c rfl
        rw [trimNewline, dropNewline?]
        · rfl
        · exact fun _ heq => hfeed (List.cons.inj heq).1
        · exact fun _ heq => hreturn (List.cons.inj heq).1

theorem isPlain_not_newline {c : Char} (hplain : isPlain c) : c ≠ '\n' ∧ c ≠ '\r' := by
  constructor <;> rintro rfl <;> exact absurd hplain (by decide)

theorem read_writeLongBasic (text : List Char) {rest : List Char}
    (hrest : rest.head? ≠ some '"') :
    read (writeLongBasic text ++ rest) = some (text, rest) := by
  have hbody : writeLongBasic text ++ rest = '"' :: '"' :: '"' ::
      (leadingNewline text ++ (escapeFrom true 2 0 text ++ closing '"' ++ rest)) := by
    simp [writeLongBasic, closing, List.replicate]
  have hlength := length_le_length_escapeFrom true 2 0 text
  rw [hbody, read, trimNewline_leadingNewline]
  · exact readLongBasic_escapeFrom (Nat.zero_le 2) hrest
      (by simp only [List.length_append, List.length_cons]; omega)
  · intro hnewline c hc
    cases text with
    | nil =>
        obtain rfl : '"' = c := by simpa [escapeFrom, closing] using hc
        decide
    | cons first text =>
        obtain ⟨head, after, heq, rfl | ⟨rfl, -, hplain | rfl⟩⟩ :=
          escapeFrom_cons_cases true 2 0 first text
        · obtain rfl : '\\' = c := by simpa [heq] using hc
          decide
        · obtain rfl : head = c := by simpa [heq] using hc
          exact isPlain_not_newline hplain
        · exact absurd List.mem_cons_self hnewline

theorem read_writeLongLiteral {text : List Char} (hplain : ∀ c ∈ text, isPlain c ∨ c = '\n')
    (hrun : longestRun '\'' text ≤ 2) {rest : List Char} (hrest : rest.head? ≠ some '\'') :
    read (writeLongLiteral text ++ rest) = some (text, rest) := by
  have hbody : writeLongLiteral text ++ rest = '\'' :: '\'' :: '\'' ::
      (leadingNewline text ++ (text ++ closing '\'' ++ rest)) := by
    simp [writeLongLiteral, closing, List.replicate]
  rw [hbody, read, trimNewline_leadingNewline]
  · exact readLongLiteral_of_longestRun hplain hrun hrest
      (by simp only [List.length_append, List.length_cons]; omega)
  · intro hnewline c hc
    cases text with
    | nil =>
        obtain rfl : '\'' = c := by simpa [closing] using hc
        decide
    | cons first text =>
        obtain rfl : first = c := by simpa using hc
        obtain hplain | rfl := hplain first List.mem_cons_self
        · exact isPlain_not_newline hplain
        · exact absurd List.mem_cons_self hnewline

theorem exists_write_eq_cons (text : List Char) :
    ∃ c rest, write text = c :: rest ∧ (c = '"' ∨ c = '\'') := by
  rw [write]
  split_ifs
  · exact ⟨'"', _, rfl, .inl rfl⟩
  · exact ⟨'\'', _, rfl, .inr rfl⟩
  · exact ⟨'"', _, rfl, .inl rfl⟩
  · exact ⟨'\'', _, rfl, .inr rfl⟩
  · exact ⟨'"', _, rfl, .inl rfl⟩
  · exact ⟨'"', _, rfl, .inl rfl⟩

theorem isPlain_or_of_not_needsEscape {text : List Char}
    (hcontrol : text.any needsEscape = false) : ∀ c ∈ text, isPlain c ∨ c = '\n' := by
  intro c hc
  have hnot := List.any_eq_false.mp hcontrol c hc
  by_cases hnewline : c = '\n'
  · exact .inr hnewline
  · exact .inl (by simpa [needsEscape, hnewline] using hnot)

/-- Every text is read back from its written form, if no quote follows. -/
theorem read_write (text : List Char) {rest : List Char} (hquote : rest.head? ≠ some '"')
    (hapostrophe : rest.head? ≠ some '\'') :
    read (write text ++ rest) = some (text, rest) := by
  rw [write]
  split_ifs with hbasic hliteral hlongBasic hlongLiteral hnewline
  · exact read_writeBasic text hquote
  · simp only [Bool.and_eq_true, Bool.not_eq_true', decide_eq_true_eq,
      List.contains_eq_mem, decide_eq_false_iff_not] at hliteral
    obtain ⟨⟨hcontrol, hnone⟩, hnewline⟩ := hliteral
    have hplain : ∀ c ∈ text, isPlain c := fun c hc =>
      (isPlain_or_of_not_needsEscape hcontrol c hc).resolve_right
        fun heq => hnewline (heq ▸ hc)
    exact read_writeLiteral hplain (not_mem_of_longestRun_eq_zero hnone) hapostrophe
  · exact read_writeLongBasic text hquote
  · simp only [Bool.and_eq_true, Bool.not_eq_true', decide_eq_true_eq] at hlongLiteral
    exact read_writeLongLiteral (isPlain_or_of_not_needsEscape hlongLiteral.1)
      hlongLiteral.2 hapostrophe
  · exact read_writeLongBasic text hquote
  · exact read_writeBasic text hquote

end QueryPlan.Toml.Quoting
