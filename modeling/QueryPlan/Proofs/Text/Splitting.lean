import Mathlib.Data.List.Basic
import QueryPlan.Text.Quoted

/-!
# Splitting texts

A text splits in one way only into a front of characters of some class and a
back that begins with none of them.  Quoted text ends at the first quote that no
other quote follows, and a part of a row at the first comma.
-/

namespace QueryPlan.Text

theorem split_unique {p : Char → Prop} {front front' back back' : List Char}
    (hfront : ∀ c ∈ front, p c) (hfront' : ∀ c ∈ front', p c)
    (hback : ∀ c ∈ back.head?, ¬ p c) (hback' : ∀ c ∈ back'.head?, ¬ p c)
    (heq : front ++ back = front' ++ back') : front = front' ∧ back = back' := by
  induction front generalizing front' with
  | nil =>
      cases front' with
      | nil => exact ⟨rfl, heq⟩
      | cons c rest =>
          have hhead : back.head? = some c := by
            rw [List.nil_append] at heq
            simp [heq]
          exact absurd (hfront' c List.mem_cons_self) (hback c hhead)
  | cons c rest ih =>
      cases front' with
      | nil =>
          have hhead : back'.head? = some c := by
            rw [List.nil_append] at heq
            simp [← heq]
          exact absurd (hfront c List.mem_cons_self) (hback' c hhead)
      | cons c' rest' =>
          obtain ⟨rfl, hrest⟩ := List.cons.inj heq
          obtain ⟨rfl, rfl⟩ := ih
            (fun other hother => hfront other (List.mem_cons_of_mem _ hother))
            (fun other hother => hfront' other (List.mem_cons_of_mem _ hother)) hrest
          exact ⟨rfl, rfl⟩

theorem doubled_unique {as bs back back' : List Char}
    (hback : back.head? ≠ some '\'') (hback' : back'.head? ≠ some '\'')
    (heq : doubled as ++ '\'' :: back = doubled bs ++ '\'' :: back') :
    as = bs ∧ back = back' := by
  induction as generalizing bs with
  | nil =>
      cases bs with
      | nil => simpa [doubled] using heq
      | cons b bs =>
          by_cases hb : b = '\''
          · simp only [doubled, hb, if_true, List.nil_append, List.cons_append,
              List.cons.injEq, true_and] at heq
            exact absurd (by rw [heq]; rfl) hback
          · simp only [doubled, hb, if_false, List.nil_append, List.cons_append,
              List.cons.injEq] at heq
            exact absurd heq.1.symm hb
  | cons a as ih =>
      by_cases ha : a = '\''
      · cases bs with
        | nil =>
            simp only [doubled, ha, if_true, List.nil_append, List.cons_append,
              List.cons.injEq, true_and] at heq
            exact absurd (by rw [← heq]; rfl) hback'
        | cons b bs =>
            by_cases hb : b = '\''
            · simp only [doubled, ha, hb, if_true, List.cons_append, List.cons.injEq,
                true_and] at heq
              obtain ⟨rfl, hrest⟩ := ih heq
              exact ⟨by rw [ha, hb], hrest⟩
            · simp only [doubled, ha, hb, if_true, if_false, List.cons_append,
                List.cons.injEq] at heq
              exact absurd heq.1.symm hb
      · cases bs with
        | nil =>
            simp only [doubled, ha, if_false, List.nil_append, List.cons_append,
              List.cons.injEq] at heq
            exact heq.1.elim
        | cons b bs =>
            by_cases hb : b = '\''
            · simp only [doubled, ha, hb, if_true, if_false, List.cons_append,
                List.cons.injEq] at heq
              exact heq.1.elim
            · simp only [doubled, ha, hb, if_false, List.cons_append,
                List.cons.injEq] at heq
              obtain ⟨rfl, hrest⟩ := heq
              obtain ⟨rfl, hback⟩ := ih hrest
              exact ⟨rfl, hback⟩

theorem intercalate_concat (separator : List Char) (init : List (List Char))
    (last : List Char) :
    separator.intercalate (init ++ [last]) = init.flatMap (· ++ separator) ++ last := by
  induction init with
  | nil => simp
  | cons first rest ih =>
      cases rest with
      | nil => simp [List.intercalate_cons_cons]
      | cons => simpa [List.intercalate_cons_cons] using ih

/-- Rows of parts without commas are known by their text, but for an empty row,
which has the text of a row of one empty part. -/
theorem intercalate_injective {as bs : List (List Char)} (has : ∀ a ∈ as, ',' ∉ a)
    (hbs : ∀ b ∈ bs, ',' ∉ b) (hnil : as = [] ↔ bs = [])
    (heq : [',', ' '].intercalate as = [',', ' '].intercalate bs) : as = bs := by
  induction as generalizing bs with
  | nil => exact (hnil.mp rfl).symm
  | cons a as ih =>
      cases bs with
      | nil => cases hnil.mpr rfl
      | cons b bs =>
          have ha := has a List.mem_cons_self
          have hb := hbs b List.mem_cons_self
          cases as with
          | nil =>
              cases bs with
              | nil => simpa using heq
              | cons b' bs =>
                  refine absurd ?_ ha
                  rw [List.intercalate_singleton, List.intercalate_cons_cons] at heq
                  simp [heq]
          | cons a' as =>
              cases bs with
              | nil =>
                  refine absurd ?_ hb
                  rw [List.intercalate_singleton, List.intercalate_cons_cons] at heq
                  simp [← heq]
              | cons b' bs =>
                  rw [List.intercalate_cons_cons, List.intercalate_cons_cons,
                    List.append_assoc, List.append_assoc] at heq
                  obtain ⟨rfl, hrest⟩ := split_unique
                    (fun c hc => ne_of_mem_of_not_mem hc ha)
                    (fun c hc => ne_of_mem_of_not_mem hc hb) (by simp) (by simp) heq
                  rw [ih (fun c hc => has c (List.mem_cons_of_mem _ hc))
                    (fun c hc => hbs c (List.mem_cons_of_mem _ hc)) (by simp)
                    (List.append_cancel_left hrest)]

end QueryPlan.Text
