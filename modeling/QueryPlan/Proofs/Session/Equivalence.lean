import QueryPlan.Proofs.Annotations.Hints
import QueryPlan.Proofs.Node.Alike
import QueryPlan.Proofs.Session.Equality
import QueryPlan.Proofs.Session.Reached

/-!
# Equality as a relation between keys

On the plans that a caller can come to hold, the equality that looks at handles
first is the equality by structure alone, so it is an equivalence.  Equal plans
have one shape throughout, types included, although no type is compared.
-/

namespace QueryPlan

section

variable [ForeignTypes]

open ForeignTypes (LawfulEqual)

open Session

variable {session : Session}

theorem Session.Sound.same_iff_alike [LawfulEqual] (hsound : session.Sound) {a b : Node}
    (ha : session.Knows a) (hb : session.Knows b) :
    a.same b = true ↔ a.Alike b := by
  rw [hsound.same_iff_normal_eq ha hb,
    (hsound.whole ha).alike_iff (hsound.whole hb) a.lawful]

theorem Session.Sound.equivalence_same [LawfulEqual] (hsound : session.Sound) :
    Equivalence fun a b : {node // session.Knows node} => a.1.same b.1 = true where
  refl a := (hsound.same_iff_normal_eq a.2 a.2).mpr rfl
  symm {a b} hab :=
    (hsound.same_iff_normal_eq b.2 a.2).mpr (hsound.normal_eq_of_same a.2 b.2 hab).symm
  trans {a b c} hab hbc := by
    have hnormal := hsound.normal_eq_of_same a.2 b.2 hab
    have hnormal' := hsound.normal_eq_of_same b.2 c.2 hbc
    exact (hsound.same_iff_normal_eq a.2 c.2).mpr (hnormal.trans hnormal')

theorem Node.shape_eq_of_normal_eq {a b : Node} (hnormal : a.normal = b.normal)
    (path : List Nat) : (a.at? path).map shape = (b.at? path).map shape := by
  have hshape : ∀ node : Node,
      (node.at? path).map shape = (node.normal.at? path).map shape := by
    intro node
    rw [at?_normal, Option.map_map]
    exact Option.map_congr fun part _ => part.shape_normal.symm
  rw [hshape a, hshape b, hnormal]

/-- Equality of known plans is equality by structure alone, and an equivalence.
Equal plans have parts of the same kind and type, with equally many children, at
every position. -/
theorem same_structural_equivalence [LawfulEqual] (hreached : session.Reached) :
    (∀ a b, session.Knows a → session.Knows b → (a.same b = true ↔ a.Alike b)) ∧
      Equivalence (fun a b : {node // session.Knows node} =>
        a.1.same b.1 = true) ∧
      ∀ a b, session.Knows a → session.Knows b → a.same b = true →
        ∀ path, (a.at? path).map Node.shape = (b.at? path).map Node.shape := by
  have hsound := hreached.sound
  refine ⟨fun a b ha hb => hsound.same_iff_alike ha hb, hsound.equivalence_same, ?_⟩
  intro a b ha hb hsame
  exact Node.shape_eq_of_normal_eq (hsound.normal_eq_of_same ha hb hsame)

end

open Session
open scoped Hints

/-- Two sums of a NaN and a zero, with other bits in both, that share no handle and are
annotated with estimates that are shared apart and have other remarks. -/
theorem same_structural_equivalence_sums :
    ∃ (session : Session) (a b : Node), session.Reached ∧ session.Knows a ∧
      session.Knows b ∧ a.handle ≠ b.handle ∧ a.label = b.label ∧
      a.children.map (·.label) ≠ b.children.map (·.label) ∧
      a.annotations.notes ≠ b.annotations.notes ∧
      a.same b = true ∧ a.Alike b ∧ b.same a = true ∧ a.same a = true ∧
      ∀ path, (a.at? path).map Node.shape = (b.at? path).map Node.shape := by
  let float : UInt64 → Handle → Node := fun bits handle =>
    (Label.constant (.float ⟨bits⟩) .float).node handle .empty []
  let guess : Note := ⟨"k", .foreign (Hints.estimate 0 100 "guessed")⟩
  let count : Note := ⟨"k", .foreign (Hints.estimate 1 100 "counted")⟩
  let nan := float 0x7ff8000000000000 0
  let zero := float 0 1
  let sum := (Label.binary .add).node 2 .empty [nan, zero]
  let a : Node := { sum with
    handle := 3
    annotations := ⟨some 3, [("k", guess)]⟩ }
  let nan' := float 0xfff8000000000001 4
  let zero' := float 0x8000000000000000 5
  let sum' := (Label.binary .add).node 6 .empty [nan', zero']
  let b : Node := { sum' with
    handle := 7
    annotations := ⟨some 7, [("k", count)]⟩ }
  let session : Session := ⟨8, [b, sum', zero', nan', a, sum, zero, nan]⟩
  have hnan : Reached ⟨1, [nan]⟩ := (Reached.start 0).assemble (by simp) rfl
  have hzero : Reached ⟨2, [zero, nan]⟩ := hnan.assemble (by simp) rfl
  have hsum : Reached ⟨3, [sum, zero, nan]⟩ := hzero.assemble (by simp) rfl
  have ha : Reached ⟨4, [a, sum, zero, nan]⟩ :=
    hsum.call _ (.annotate sum "k" (.foreign (Hints.estimate 0 100 "guessed"))
      (knows_of_mem_held List.mem_cons_self)) rfl
  have hnan' : Reached ⟨5, [nan', a, sum, zero, nan]⟩ := ha.assemble (by simp) rfl
  have hzero' : Reached ⟨6, [zero', nan', a, sum, zero, nan]⟩ :=
    hnan'.assemble (by simp) rfl
  have hsum' : Reached ⟨7, [sum', zero', nan', a, sum, zero, nan]⟩ :=
    hzero'.assemble (by simp) rfl
  have hreached : session.Reached :=
    hsum'.call _ (.annotate sum' "k" (.foreign (Hints.estimate 1 100 "counted"))
      (knows_of_mem_held List.mem_cons_self)) rfl
  have hknowsA : session.Knows a := knows_of_mem_held (by simp [session])
  have hknowsB : session.Knows b := knows_of_mem_held (by simp [session])
  have hsame : a.same b = true := by decide
  obtain ⟨halike, hequivalence, hshape⟩ := same_structural_equivalence hreached
  have hsymm : ∀ x y : {node // session.Knows node},
      x.1.same y.1 = true → y.1.same x.1 = true := fun _ _ => hequivalence.symm
  exact ⟨session, a, b, hreached, hknowsA, hknowsB, by decide, rfl, by decide, by decide,
    hsame, (halike a b hknowsA hknowsB).mp hsame,
    hsymm ⟨a, hknowsA⟩ ⟨b, hknowsB⟩ hsame,
    hequivalence.refl ⟨a, hknowsA⟩, hshape a b hknowsA hknowsB hsame⟩

end QueryPlan
