import Mathlib.Data.Quot
import QueryPlan.Annotations.Foreign

/-!
# Laws of the callers' types

Three laws may be asked of the types of the callers: that they compare their
values by an equivalence, that equal values are digested alike, and that equal
values are written alike.  A caller promises the first two with every type of
which it attaches values, but not the third.  The first makes sameness of foreign
values the equality of their contents, so that pointers only spare comparisons.

A representative stands for the values that are the same as one value.
-/

namespace QueryPlan

variable [ForeignTypes]

namespace ForeignTypes

/-- Every type compares its values by an equivalence. -/
class LawfulEqual : Prop where
  equivalence (type : Ident) :
    Equivalence fun a b : Value type => equal a b = true

/-- Equal values are digested alike. -/
class LawfulDigest : Prop where
  digest_eq {type : Ident} {a b : Value type} :
    equal a b = true → digest a = digest b

/-- Equal values are written alike. -/
class LawfulText : Prop where
  text_eq {type : Ident} {a b : Value type} :
    equal a b = true → text a = text b

end ForeignTypes

open ForeignTypes

namespace Foreign

variable {a b : Foreign}

/-- The contents of values that are alike are equal as values of one type. -/
theorem alike_iff :
    a.alike b = true ↔ ∃ (type : Ident) (x y : Value type),
      target a.pointer = ⟨type, x⟩ ∧ target b.pointer = ⟨type, y⟩ ∧
        equal x y = true := by
  unfold alike contentAs? content Foreign.type
  generalize target a.pointer = first
  generalize target b.pointer = second
  obtain ⟨type, x⟩ := first
  obtain ⟨type', y⟩ := second
  constructor
  · intro halike
    by_cases htype : type' = type
    · subst htype
      exact ⟨type', x, y, rfl, rfl, by simpa using halike⟩
    · simp [htype] at halike
  · rintro ⟨_, _, _, hx, hy, hequal⟩
    cases hx
    cases hy
    simpa using hequal

theorem equivalence_alike [LawfulEqual] :
    Equivalence fun a b : Foreign => a.alike b = true where
  refl _ := alike_iff.mpr ⟨_, _, _, rfl, rfl, (LawfulEqual.equivalence _).refl _⟩
  symm halike := by
    obtain ⟨type, x, y, ha, hb, hequal⟩ := alike_iff.mp halike
    exact alike_iff.mpr ⟨type, y, x, hb, ha, (LawfulEqual.equivalence type).symm hequal⟩
  trans hab hbc := by
    obtain ⟨type, x, y, ha, hb, hxy⟩ := alike_iff.mp hab
    obtain ⟨type', y', z, hb', hc, hyz⟩ := alike_iff.mp hbc
    cases hb.symm.trans hb'
    exact alike_iff.mpr ⟨type, x, z, ha, hc, (LawfulEqual.equivalence type).trans hxy hyz⟩

theorem same_iff : a.same b = true ↔ a = b ∨ a.alike b = true := by
  cases a
  cases b
  simp [same]

/-- Pointers decide nothing that the contents do not. -/
theorem same_iff_alike [LawfulEqual] : a.same b = true ↔ a.alike b = true := by
  rw [same_iff]
  constructor
  · rintro (rfl | halike)
    · exact equivalence_alike.refl a
    · exact halike
  · exact .inr

/-- What equal values of a type agree in, values that are the same agree in. -/
theorem apply_content_eq_of_same {β : Type} {f : (type : Ident) → Value type → β}
    (hf : ∀ type (x y : Value type), equal x y = true → f type x = f type y)
    (hsame : a.same b = true) : f a.type a.content = f b.type b.content := by
  obtain rfl | halike := same_iff.mp hsame
  · rfl
  · obtain ⟨type, x, y, ha, hb, hequal⟩ := alike_iff.mp halike
    unfold content Foreign.type
    rw [ha, hb]
    exact hf type x y hequal

theorem digest_eq_of_same [LawfulDigest] (hsame : a.same b = true) :
    a.digest = b.digest := by
  refine apply_content_eq_of_same
    (f := fun type value => typeDigest type ++ ForeignTypes.digest value) ?_ hsame
  intro type x y hequal
  rw [LawfulDigest.digest_eq hequal]

theorem text_eq_of_same [LawfulText] (hsame : a.same b = true) : a.text = b.text :=
  apply_content_eq_of_same (fun _ _ _ => LawfulText.text_eq) hsame

/-! ## Representatives -/

/-- One value for all that are the same as the given one. -/
noncomputable def representative (value : Foreign) : Foreign :=
  (Quot.mk (fun a b : Foreign => a.same b = true) value).out

theorem representative_eq_of_same (hsame : a.same b = true) :
    a.representative = b.representative :=
  congrArg Quot.out (Quot.sound hsame)

/-- What does not tell values that are the same apart is known from their
representative. -/
theorem eq_of_representative_eq {β : Type} {f : Foreign → β}
    (hf : ∀ a b, a.same b = true → f a = f b)
    (heq : a.representative = b.representative) : f a = f b := by
  have hclass := congrArg (Quot.mk fun a b : Foreign => a.same b = true) heq
  rw [representative, representative, Quot.out_eq, Quot.out_eq] at hclass
  exact congrArg (Quot.lift f hf) hclass

theorem representative_representative (value : Foreign) :
    value.representative.representative = value.representative :=
  congrArg Quot.out (Quot.out_eq _)

theorem digest_representative [LawfulDigest] (value : Foreign) :
    value.representative.digest = value.digest :=
  eq_of_representative_eq (fun _ _ => digest_eq_of_same) value.representative_representative

theorem same_iff_representative_eq [LawfulEqual] :
    a.same b = true ↔ a.representative = b.representative := by
  refine ⟨representative_eq_of_same, fun heq => ?_⟩
  have hsame : ∀ c d : Foreign, c.same d = true → c.same b = d.same b := by
    intro c d hcd
    rw [Bool.eq_iff_iff, same_iff_alike, same_iff_alike]
    rw [same_iff_alike] at hcd
    exact ⟨equivalence_alike.trans (equivalence_alike.symm hcd), equivalence_alike.trans hcd⟩
  rw [eq_of_representative_eq hsame heq, same_iff_alike]
  exact equivalence_alike.refl b

end Foreign

end QueryPlan
