import Mathlib.Data.String.Basic
import QueryPlan.Node.Collect

/-!
# The order of signatures

Signatures are compared field by field, each field in the usual order of optional
texts, texts and lists of texts.  So the comparison is a linear order, and sorting
followed by dropping repetitions makes strictly increasing lists.
-/

namespace QueryPlan.Signature

theorem compareDeclaring_eq : compareDeclaring = compare := by
  funext a b
  cases a <;> cases b <;> rfl

theorem compareLists_eq : compareLists = compare := by
  funext as bs
  induction as generalizing bs with
  | nil => cases bs <;> rfl
  | cons a as ih =>
      cases bs with
      | nil => rfl
      | cons b bs =>
          rw [compareLists, ih]
          exact List.compareLex_cons_cons.symm

theorem order_eq : order =
    compareLex (compareOn declaring) (compareLex (compareOn name) (compareOn parameters)) := by
  funext a b
  rw [order, compareDeclaring_eq, compareLists_eq]
  rfl

instance : Std.TransCmp order := by
  rw [order_eq]
  infer_instance

theorem eq_of_order_eq {a b : Signature} (horder : order a b = .eq) : a = b := by
  obtain ⟨declaring, name, parameters⟩ := a
  obtain ⟨declaring', name', parameters'⟩ := b
  simpa [order, compareDeclaring_eq, compareLists_eq, Ordering.then_eq_eq] using horder

theorem order_eq_lt_of_ne {a b : Signature} (horder : (order a b).isLE = true)
    (hne : a ≠ b) : order a b = .lt := by
  rcases Ordering.isLE_iff_eq_lt_or_eq_eq.mp horder with hlt | heq
  · exact hlt
  · exact absurd (eq_of_order_eq heq) hne

/-! ## Sorted lists -/

theorem pairwise_sort (signatures : List Signature) :
    (sort signatures).Pairwise fun a b => (order a b).isLE = true := by
  apply List.pairwise_mergeSort
  · exact fun a b c => Std.TransCmp.isLE_trans
  · intro a b
    have hswap : order b a = (order a b).swap := Std.OrientedCmp.eq_swap
    rw [hswap]
    cases order a b <;> rfl

theorem mem_distinct {signature : Signature} {signatures : List Signature} :
    signature ∈ distinct signatures ↔ signature ∈ signatures := by
  fun_induction distinct signatures with
  | case1 => rfl
  | case2 => rfl
  | case3 a rest ih => simp [ih]
  | case4 a b rest hne ih => simp [ih]

theorem pairwise_distinct {signatures : List Signature}
    (hsorted : signatures.Pairwise fun a b => (order a b).isLE = true) :
    (distinct signatures).Pairwise fun a b => order a b = .lt := by
  fun_induction distinct signatures with
  | case1 => exact List.Pairwise.nil
  | case2 signature => exact List.pairwise_singleton _ signature
  | case3 a rest ih => exact ih hsorted.of_cons
  | case4 a b rest hne ih =>
      obtain ⟨hfirst, hrest⟩ := List.pairwise_cons.mp hsorted
      have hlt := order_eq_lt_of_ne (hfirst b List.mem_cons_self) hne
      refine List.pairwise_cons.mpr ⟨?_, ih hrest⟩
      intro later hlater
      rcases List.mem_cons.mp (mem_distinct.mp hlater) with rfl | hlater
      · exact hlt
      · exact Std.TransCmp.lt_of_lt_of_isLE hlt (List.rel_of_pairwise_cons hrest hlater)

end QueryPlan.Signature
