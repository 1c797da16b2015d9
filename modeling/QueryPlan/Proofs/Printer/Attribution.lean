import QueryPlan.Proofs.Annotations.Hints
import QueryPlan.Proofs.Printer.AnnotatedText
import QueryPlan.Proofs.Session.Equivalence

/-!
# Whose annotations a text shows

Expressions that are equal without annotations and that have one text are equal
once their annotations are lowered.  Where every operator with annotations has
parentheses around its last operand, or that operand has annotations too, nothing
is lowered, and the text determines the plan.
-/

namespace QueryPlan

section

variable [ForeignTypes]

namespace Node

/-- No operator with annotations ends in an operand without parentheses and without
annotations. -/
def Attributed (node : Node) : Prop :=
  ∀ part ∈ node.preorder, ∀ last ∈ part.children.getLast?,
    part.label.endsOpen last.label = true → last.annotations.isEmpty = true →
      part.annotations.isEmpty = true

instance (node : Node) : Decidable node.Attributed :=
  inferInstanceAs (Decidable (∀ part ∈ node.preorder, ∀ last ∈ part.children.getLast?,
    part.label.endsOpen last.label = true → last.annotations.isEmpty = true →
      part.annotations.isEmpty = true))

theorem attributed_iff {node : Node} :
    node.Attributed ↔
      (∀ last ∈ node.children.getLast?, node.label.endsOpen last.label = true →
        last.annotations.isEmpty = true → node.annotations.isEmpty = true) ∧
        ∀ child ∈ node.children, child.Attributed :=
  forall_mem_preorder_iff

theorem hand_eq_self {parent : Label} {own : Annotations} {last : Node}
    (hown : own.WellFormed) (hlast : last.annotations.WellFormed)
    (hempty : parent.endsOpen last.label = true → last.annotations.isEmpty = true →
      own.isEmpty = true) : hand parent own last = (own, last) := by
  unfold hand
  split
  · rename_i hboth
    obtain ⟨hopen, hlastEmpty⟩ := (Bool.and_eq_true _ _).mp hboth
    obtain rfl := hown.eq_empty (hempty hopen hlastEmpty)
    rw [← hlast.eq_empty hlastEmpty]
    cases last
    rfl
  · rfl

theorem Attributed.lowered_eq_self {node : Node} (hnode : node.Whole)
    (hattributed : node.Attributed) : node.lowered = node := by
  induction node using Node.inductionOn with
  | step node ih =>
      obtain ⟨hwell, hparts⟩ := whole_iff.mp hnode
      obtain ⟨hlast, hattributedParts⟩ := attributed_iff.mp hattributed
      have hchildren : ∀ child ∈ node.children, child.lowered = child :=
        fun child hchild => ih child hchild (hparts child hchild)
          (hattributedParts child hchild)
      rcases List.eq_nil_or_concat' node.children with hnil | ⟨init, last, hconcat⟩
      · rw [lowered_eq, hnil, lower]
        cases node
        simpa using hnil.symm
      · have hmem : last ∈ node.children := by simp [hconcat]
        have hinit : init.map lowered = init.map id :=
          List.map_congr_left fun child hchild => hchildren child (by simp [hconcat, hchild])
        rw [lowered_concat hconcat, hchildren last hmem, hinit, List.map_id,
          hand_eq_self hwell.annotations (whole_iff.mp (hparts last hmem)).1.annotations
            (hlast last (by simp [hconcat])), ← hconcat]
        cases node
        rfl

end Node

/-- Two known expressions that are equal without annotations, all of which are
integers under plain names, are equal once lowered if they have one text, and
lowering does not change a text.  So they are the same if they have one text, and
their operators hand no annotations down. -/
theorem lowered_alike_of_text_eq {session : Session} (hreached : session.Reached)
    {a b : Node} (ha : session.Knows a) (hb : session.Knows b)
    (hscalar : a.category = .scalar) (hplain : a.Integers) (hplain' : b.Integers)
    (halike : a.stripped.Alike b.stripped) (htext : a.text = b.text) :
    a.lowered.Alike b.lowered ∧ a.lowered.text = a.text ∧ b.lowered.text = b.text ∧
      (a.Attributed → b.Attributed → a.same b = true) := by
  have hsound := hreached.sound
  have hwholeA := hsound.whole ha
  have hwholeB := hsound.whole hb
  have hcomparable := Node.comparable hwholeA hwholeB hscalar hplain hplain' halike
  obtain ⟨hlowered, -⟩ := hcomparable.decodes [] [] (by simp [Text.Stops])
    (by simp [Text.Stops]) (by rw [htext])
  refine ⟨hlowered, a.text_lowered, b.text_lowered, ?_⟩
  intro hattributed hattributed'
  rw [hattributed.lowered_eq_self hwholeA, hattributed'.lowered_eq_self hwholeB] at hlowered
  have hlawful : a.Lawful := fun part hpart note hnote => (hplain part hpart note hnote).lawful
  exact hlawful.same_of_normal_eq ((hwholeA.alike_iff hwholeB hlawful).mp hlowered)

end

open scoped Hints

/-- Comparisons built apart from each other, with annotations at both columns and
at the comparison. -/
theorem lowered_alike_of_text_eq_comparisons :
    ∃ (session : Session) (a b : Node), session.Reached ∧ session.Knows a ∧
      session.Knows b ∧ a.handle ≠ b.handle ∧ a.category = .scalar ∧ a.Integers ∧
      b.Integers ∧ a.stripped.Alike b.stripped ∧ a.text = "x = y [k=1] [m=2]" ∧
      b.text = "x = y [k=1] [m=2]" ∧ a.Attributed ∧ b.Attributed ∧
      a.lowered.Alike b.lowered ∧ a.same b = true := by
  let one : Note := ⟨"k", .literal (.int 1)⟩
  let two : Note := ⟨"m", .literal (.int 2)⟩
  have hone : one.Plain := ⟨by decide, 1, rfl⟩
  have htwo : two.Plain := ⟨by decide, 2, rfl⟩
  let x := (Label.column none "x" .integer).node 0 .empty []
  let y := (Label.column none "y" .integer).node 1 .empty []
  let yOne := (Label.column none "y" .integer).node 2 ⟨some 2, [("k", one)]⟩ []
  let equation := (Label.binary .equal).node 3 .empty [x, yOne]
  let a := (Label.binary .equal).node 4 ⟨some 4, [("m", two)]⟩ [x, yOne]
  let x' := (Label.column none "x" .integer).node 5 .empty []
  let equation' := (Label.binary .equal).node 6 .empty [x', yOne]
  let b := (Label.binary .equal).node 7 ⟨some 7, [("m", two)]⟩ [x', yOne]
  let held : List Node := [x', a, equation, yOne, y, x]
  let session : Session := ⟨8, b :: equation' :: held⟩
  have hx : Session.Reached ⟨1, [x]⟩ := (Session.Reached.start 0).assemble (by simp) rfl
  have hy : Session.Reached ⟨2, [y, x]⟩ := hx.assemble (by simp) rfl
  have hyOne : Session.Reached ⟨3, [yOne, y, x]⟩ :=
    hy.call _ (.annotate y "k" (.literal (.int 1))
      (Session.knows_of_mem_held List.mem_cons_self)) rfl
  have hequation : Session.Reached ⟨4, [equation, yOne, y, x]⟩ :=
    hyOne.assemble (by simp) rfl
  have ha : Session.Reached ⟨5, [a, equation, yOne, y, x]⟩ :=
    hequation.call _ (.annotate equation "m" (.literal (.int 2))
      (Session.knows_of_mem_held List.mem_cons_self)) rfl
  have hx' : Session.Reached ⟨6, held⟩ := ha.assemble (by simp) rfl
  have hequation' : Session.Reached ⟨7, equation' :: held⟩ :=
    hx'.assemble (by simp [held]) rfl
  have hreached : session.Reached :=
    hequation'.call _ (.annotate equation' "m" (.literal (.int 2))
      (Session.knows_of_mem_held List.mem_cons_self)) rfl
  have hknowsA : session.Knows a := Session.knows_of_mem_held (by simp [session, held])
  have hknowsB : session.Knows b := Session.knows_of_mem_held List.mem_cons_self
  have hplain : a.Integers := by
    have hparts : a.preorder = [a, x, yOne] := rfl
    rw [Node.Integers, hparts]
    simp [a, x, yOne, Annotations.notes, Annotations.empty, hone, htwo]
  have hplain' : b.Integers := by
    have hparts : b.preorder = [b, x', yOne] := rfl
    rw [Node.Integers, hparts]
    simp [b, x', yOne, Annotations.notes, Annotations.empty, hone, htwo]
  have hnone : Annotations.empty.Alike .empty := fun _ => .none
  have halike : a.stripped.Alike b.stripped :=
    ⟨rfl, hnone, .cons ⟨rfl, hnone, .nil⟩ (.cons ⟨rfl, hnone, .nil⟩ .nil)⟩
  obtain ⟨hlowered, -, -, hsame⟩ := lowered_alike_of_text_eq hreached hknowsA hknowsB rfl
    hplain hplain' halike (by decide)
  exact ⟨session, a, b, hreached, hknowsA, hknowsB, by decide, rfl, hplain, hplain', halike,
    by decide, by decide, by decide, by decide, hlowered, hsame (by decide) (by decide)⟩

/-- The same comparison with an annotation at its last operand or at itself. -/
theorem text_eq_of_raised :
    ∃ (session : Session) (a b : Node), session.Reached ∧ session.Knows a ∧
      session.Knows b ∧ a.category = .scalar ∧ a.Integers ∧ b.Integers ∧
      a.stripped.Alike b.stripped ∧ a.text = "x = y [k=1]" ∧ b.text = "x = y [k=1]" ∧
      a.same b = false := by
  let one : Note := ⟨"k", .literal (.int 1)⟩
  have hone : one.Plain := ⟨by decide, 1, rfl⟩
  let x := (Label.column none "x" .integer).node 0 .empty []
  let y := (Label.column none "y" .integer).node 1 .empty []
  let yOne := (Label.column none "y" .integer).node 2 ⟨some 2, [("k", one)]⟩ []
  let a := (Label.binary .equal).node 3 .empty [x, yOne]
  let equation := (Label.binary .equal).node 4 .empty [x, y]
  let b := (Label.binary .equal).node 5 ⟨some 5, [("k", one)]⟩ [x, y]
  have hx : Session.Reached ⟨1, [x]⟩ := (Session.Reached.start 0).assemble (by simp) rfl
  have hy : Session.Reached ⟨2, [y, x]⟩ := hx.assemble (by simp) rfl
  have hyOne : Session.Reached ⟨3, [yOne, y, x]⟩ :=
    hy.call _ (.annotate y "k" (.literal (.int 1))
      (Session.knows_of_mem_held List.mem_cons_self)) rfl
  have ha : Session.Reached ⟨4, [a, yOne, y, x]⟩ := hyOne.assemble (by simp) rfl
  have hequation : Session.Reached ⟨5, [equation, a, yOne, y, x]⟩ :=
    ha.assemble (by simp) rfl
  have hreached : Session.Reached ⟨6, [b, equation, a, yOne, y, x]⟩ :=
    hequation.call _ (.annotate equation "k" (.literal (.int 1))
      (Session.knows_of_mem_held List.mem_cons_self)) rfl
  refine ⟨_, a, b, hreached, Session.knows_of_mem_held (by simp),
    Session.knows_of_mem_held (by simp), rfl, ?_, ?_, ?_, by decide, by decide, by decide⟩
  · have hparts : a.preorder = [a, x, yOne] := rfl
    rw [Node.Integers, hparts]
    simp [a, x, yOne, Annotations.notes, Annotations.empty, hone]
  · have hparts : b.preorder = [b, x, y] := rfl
    rw [Node.Integers, hparts]
    simp [b, x, y, Annotations.notes, Annotations.empty, hone]
  · have hnone : Annotations.empty.Alike .empty := fun _ => .none
    exact ⟨rfl, hnone, .cons ⟨rfl, hnone, .nil⟩ (.cons ⟨rfl, hnone, .nil⟩ .nil)⟩

end QueryPlan
