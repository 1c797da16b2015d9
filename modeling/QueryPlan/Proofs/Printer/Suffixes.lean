import QueryPlan.Proofs.Literal
import QueryPlan.Proofs.Printer.EqualPlans
import QueryPlan.Proofs.Text.Splitting

/-!
# Annotations at the end of a text

The annotations of a node stand in brackets behind its text.  If their values are
integers and their names keep clear of the punctuation, the brackets are read back
in one way, as long as nothing behind them looks like another set of annotations.

Two sets may follow each other, that of an operand and that of its operator.  If
only one is there, the text does not tell which.
-/

namespace QueryPlan

variable [ForeignTypes]

open Text

/-- Whether a text does not go on with annotations. -/
def Text.Stops (rest : List Char) : Prop :=
  ∀ back, rest ≠ ' ' :: '[' :: back

/-- An integer under a name without the punctuation of annotations. -/
structure Note.Plain (note : Note) : Prop where
  name : ',' ∉ note.name.toList ∧ '=' ∉ note.name.toList ∧ ']' ∉ note.name.toList
  value : ∃ value : Int64, note.value = .literal (.int value)

namespace Note

variable {note note' : Note}

theorem Plain.lawful (hnote : note.Plain) : note.value.Lawful := by
  obtain ⟨value, hvalue⟩ := hnote.value
  rw [hvalue]
  trivial

theorem Plain.not_mem (hnote : note.Plain) :
    ',' ∉ note.text.toList ∧ ']' ∉ note.text.toList := by
  obtain ⟨hcomma, -, hclosing⟩ := hnote.name
  obtain ⟨value, hvalue⟩ := hnote.value
  have hdigits : ∀ c : Char, c.isDigit = false → c ≠ '-' →
      c ∉ (Literal.int value).text.toList := by
    intro c hdigit hminus hmem
    rcases Literal.mem_text_int hmem with hc | hc
    · rw [hdigit] at hc
      cases hc
    · exact hminus hc
  have hcomma' := hdigits ',' (by decide) (by decide)
  have hclosing' := hdigits ']' (by decide) (by decide)
  simp only [text, hvalue, NoteValue.text, String.toList_append, List.mem_append]
  constructor
  · rintro ((hmem | hmem) | hmem)
    · exact hcomma hmem
    · exact absurd hmem (by decide)
    · exact hcomma' hmem
  · rintro ((hmem | hmem) | hmem)
    · exact hclosing hmem
    · exact absurd hmem (by decide)
    · exact hclosing' hmem

theorem text_injective (hnote : note.Plain) (hnote' : note'.Plain)
    (htext : note.text = note'.text) : note = note' := by
  obtain ⟨value, hvalue⟩ := hnote.value
  obtain ⟨value', hvalue'⟩ := hnote'.value
  have hlist := congrArg String.toList htext
  simp only [text, String.toList_append, List.append_assoc] at hlist
  obtain ⟨hname, hrest⟩ := split_unique
    (fun c hc => ne_of_mem_of_not_mem hc hnote.name.2.1)
    (fun c hc => ne_of_mem_of_not_mem hc hnote'.name.2.1) (by simp) (by simp) hlist
  have hint : (Literal.int value).text = (Literal.int value').text := by
    rw [hvalue, hvalue'] at hrest
    exact String.toList_inj.mp (List.append_cancel_left hrest)
  obtain ⟨name, value⟩ := note
  obtain ⟨name', value'⟩ := note'
  have hvalue := Literal.int_injective hint
  simp_all [String.toList_inj]

end Note

/-- The characters of some annotations behind a node. -/
def marks (notes : List Note) : List Char :=
  if notes = [] then []
  else ' ' :: '[' :: ([',', ' '].intercalate (notes.map (·.text.toList)) ++ [']'])

theorem toList_suffix (annotations : Annotations) :
    (annotations.suffix .default).toList = marks annotations.notes := by
  rw [Annotations.suffix_default, marks]
  split
  · rfl
  · simp [Annotations.text, String.toList_intercalate, Function.comp_def]

theorem closing_not_mem_row {notes : List Note} (hplain : ∀ note ∈ notes, note.Plain) :
    ']' ∉ [',', ' '].intercalate (notes.map (·.text.toList)) := by
  induction notes with
  | nil => simp
  | cons note notes ih =>
      have hnote := (hplain note List.mem_cons_self).not_mem.2
      have hnotes := ih fun other hother => hplain other (List.mem_cons_of_mem _ hother)
      cases notes with
      | nil => simpa using hnote
      | cons => simp_all [List.intercalate_cons_cons]

theorem marks_unique {notes notes' : List Note} (hne : notes ≠ []) (hne' : notes' ≠ [])
    (hplain : ∀ note ∈ notes, note.Plain) (hplain' : ∀ note ∈ notes', note.Plain)
    {rest rest' : List Char} (heq : marks notes ++ rest = marks notes' ++ rest') :
    notes = notes' ∧ rest = rest' := by
  simp only [marks, hne, hne', if_false, List.cons_append, List.cons.injEq, true_and,
    List.append_assoc] at heq
  obtain ⟨hrow, hrest⟩ := split_unique
    (fun c hc => ne_of_mem_of_not_mem hc (closing_not_mem_row hplain))
    (fun c hc => ne_of_mem_of_not_mem hc (closing_not_mem_row hplain')) (by simp) (by simp)
    heq
  have htexts := intercalate_injective
    (by simpa using fun note hnote => (hplain note hnote).not_mem.1)
    (by simpa using fun note hnote => (hplain' note hnote).not_mem.1)
    (by simp [hne, hne']) hrow
  obtain ⟨hlength, htext⟩ := List.forall₂_iff_get.mp (map_eq_map_iff_forall₂.mp htexts)
  refine ⟨List.ext_get hlength fun place hplace hplace' => ?_, by simpa using hrest⟩
  exact Note.text_injective (hplain _ (List.get_mem _ _)) (hplain' _ (List.get_mem _ _))
    (String.toList_inj.mp (htext place hplace hplace'))

theorem eq_nil_of_stops {notes : List Note} {rest rest' : List Char} (hrest : Stops rest)
    (heq : rest = marks notes ++ rest') : notes = [] ∧ rest = rest' := by
  by_cases hnotes : notes = []
  · rw [hnotes, marks, if_pos rfl] at heq
    exact ⟨hnotes, heq⟩
  · rw [marks, if_neg hnotes] at heq
    exact absurd heq (hrest _)

/-- A set, or none, in front of what does not go on with another one. -/
theorem marks_append_unique {notes notes' : List Note}
    (hplain : ∀ note ∈ notes, note.Plain) (hplain' : ∀ note ∈ notes', note.Plain)
    {rest rest' : List Char} (hrest : Stops rest) (hrest' : Stops rest')
    (heq : marks notes ++ rest = marks notes' ++ rest') : notes = notes' ∧ rest = rest' := by
  by_cases hnotes : notes = []
  · rw [hnotes, marks, if_pos rfl, List.nil_append] at heq
    obtain ⟨hnotes', hrests⟩ := eq_nil_of_stops hrest heq
    exact ⟨hnotes.trans hnotes'.symm, hrests⟩
  · have hnotes' : notes' ≠ [] := by
      rintro rfl
      exact hnotes (eq_nil_of_stops hrest' heq.symm).1
    exact marks_unique hnotes hnotes' hplain hplain' heq

/-- One set on the one side, and none behind the first one on the other. -/
theorem own_eq_given {own given' own' : List Note} (hgiven' : given' ≠ [])
    (hplain : ∀ note ∈ own, note.Plain) (hplain' : ∀ note ∈ given', note.Plain)
    {rest rest' : List Char} (hrest : Stops rest)
    (heq : marks own ++ rest = marks given' ++ (marks own' ++ rest')) :
    own = given' ∧ own' = [] ∧ rest = rest' := by
  have hown : own ≠ [] := by
    rintro rfl
    exact hgiven' (eq_nil_of_stops hrest heq).1
  obtain ⟨howns, hback⟩ := marks_unique hown hgiven' hplain hplain' heq
  exact ⟨howns, eq_nil_of_stops hrest hback⟩

/-- The annotations of a last operand and of its operator are told apart, if both
are there or none. -/
theorem trail_unique {given own given' own' : List Note}
    (hplain : ∀ note ∈ given ++ own, note.Plain)
    (hplain' : ∀ note ∈ given' ++ own', note.Plain)
    {rest rest' : List Char} (hrest : Stops rest) (hrest' : Stops rest')
    (heq : marks given ++ (marks own ++ rest) = marks given' ++ (marks own' ++ rest')) :
    ((if given = [] then [] else own) = if given' = [] then [] else own') ∧
      ((if given = [] then own else given) = if given' = [] then own' else given') ∧
      rest = rest' := by
  obtain ⟨hgivens, howns⟩ := List.forall_mem_append.mp hplain
  obtain ⟨hgivens', howns'⟩ := List.forall_mem_append.mp hplain'
  by_cases hgiven : given = [] <;> by_cases hgiven' : given' = []
  · rw [hgiven, hgiven'] at heq
    obtain ⟨hnotes, hrests⟩ := marks_append_unique howns howns' hrest hrest' heq
    simp [hgiven, hgiven', hnotes, hrests]
  · rw [hgiven] at heq
    obtain ⟨hnotes, hnone, hrests⟩ := own_eq_given hgiven' howns hgivens' hrest heq
    simp [hgiven, hgiven', hnotes, hnone, hrests]
  · rw [hgiven'] at heq
    obtain ⟨hnotes, hnone, hrests⟩ := own_eq_given hgiven howns' hgivens hrest' heq.symm
    simp [hgiven, hgiven', hnotes, hnone, hrests]
  · obtain ⟨hnotes, hback⟩ := marks_unique hgiven hgiven' hgivens hgivens' heq
    obtain ⟨hnotes', hrests⟩ := marks_append_unique howns howns' hrest hrest' hback
    simp [hgiven', hnotes, hnotes', hrests]

end QueryPlan
