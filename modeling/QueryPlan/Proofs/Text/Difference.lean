import Mathlib.Data.List.Basic
import Mathlib.Data.List.Forall2

/-!
# Where texts differ

Two texts diverge when a common front is followed by different characters, so
that they stay different whatever is added to them.  Texts that tell whether a
condition holds are equal if it does, and diverge if it does not; put together
from such parts, they tell whether all the conditions hold.
-/

namespace QueryPlan.Text

def Diverge (s t : List Char) : Prop :=
  ∃ (front : List Char) (c c' : Char) (back back' : List Char),
    c ≠ c' ∧ s = front ++ c :: back ∧ t = front ++ c' :: back'

theorem Diverge.ne {s t : List Char} (hdiverge : Diverge s t) : s ≠ t := by
  obtain ⟨front, c, c', back, back', hne, rfl, rfl⟩ := hdiverge
  intro heq
  exact hne (List.cons.inj (List.append_cancel_left heq)).1

theorem Diverge.append {s t : List Char} (hdiverge : Diverge s t) (u v : List Char) :
    Diverge (s ++ u) (t ++ v) := by
  obtain ⟨front, c, c', back, back', hne, rfl, rfl⟩ := hdiverge
  exact ⟨front, c, c', back ++ u, back' ++ v, hne, by simp, by simp⟩

theorem Diverge.prepend {s t : List Char} (hdiverge : Diverge s t) (u : List Char) :
    Diverge (u ++ s) (u ++ t) := by
  obtain ⟨front, c, c', back, back', hne, rfl, rfl⟩ := hdiverge
  exact ⟨u ++ front, c, c', back, back', hne, by simp, by simp⟩

theorem diverge_cons {c c' : Char} (hne : c ≠ c') (back back' : List Char) :
    Diverge (c :: back) (c' :: back') :=
  ⟨[], c, c', back, back', hne, rfl, rfl⟩

/-- Two texts that are equal if a condition holds, and else diverge. -/
def Tells (condition : Prop) (s t : List Char) : Prop :=
  condition ∧ s = t ∨ ¬ condition ∧ Diverge s t

variable {p q : Prop} {s t : List Char}

theorem Tells.eq_iff (htells : Tells p s t) : s = t ↔ p := by
  rcases htells with ⟨hp, heq⟩ | ⟨hp, hdiverge⟩
  · exact iff_of_true heq hp
  · exact iff_of_false hdiverge.ne hp

theorem tells_self (hp : p) (s : List Char) : Tells p s s :=
  .inl ⟨hp, rfl⟩

theorem Tells.congr (htells : Tells p s t) (hiff : p ↔ q) : Tells q s t := by
  rwa [← propext hiff]

theorem Tells.append (htells : Tells p s t) {u v : List Char} (htells' : Tells q u v) :
    Tells (p ∧ q) (s ++ u) (t ++ v) := by
  rcases htells with ⟨hp, rfl⟩ | ⟨hp, hdiverge⟩
  · rcases htells' with ⟨hq, rfl⟩ | ⟨hq, hdiverge⟩
    · exact tells_self ⟨hp, hq⟩ _
    · exact .inr ⟨fun hboth => hq hboth.2, hdiverge.prepend s⟩
  · exact .inr ⟨fun hboth => hp hboth.1, hdiverge.append u v⟩

/-- The same text on both sides does not matter. -/
theorem Tells.append_self (htells : Tells p s t) (u : List Char) :
    Tells p (s ++ u) (t ++ u) :=
  (htells.append (tells_self trivial u)).congr (and_iff_left trivial)

theorem Tells.self_append (htells : Tells p s t) (u : List Char) :
    Tells p (u ++ s) (u ++ t) :=
  ((tells_self trivial u).append htells).congr (and_iff_right trivial)

/-- Rows of parts tell whether the conditions of all parts hold. -/
theorem tells_intercalate {α β : Type} {related : α → β → Prop}
    {part : α → List Char} {part' : β → List Char} (separator : List Char)
    {as : List α} {bs : List β}
    (htells : List.Forall₂ (fun a b => Tells (related a b) (part a) (part' b)) as bs) :
    Tells (List.Forall₂ related as bs) (separator.intercalate (as.map part))
      (separator.intercalate (bs.map part')) := by
  induction htells with
  | nil => exact tells_self .nil _
  | @cons a b as bs hfirst hrest ih =>
      refine Tells.congr ?_ List.forall₂_cons.symm
      cases hrest with
      | nil =>
          simp only [List.map_cons, List.map_nil, List.intercalate_singleton]
          exact hfirst.congr (and_iff_left .nil).symm
      | cons =>
          simp only [List.map_cons, List.intercalate_cons_cons] at ih ⊢
          exact (hfirst.append_self separator).append ih

end QueryPlan.Text
