import QueryPlan.Node.Description
import QueryPlan.Proofs.Annotations.Hints
import QueryPlan.Proofs.Literal
import QueryPlan.Proofs.Session.Equality
import QueryPlan.Proofs.Session.Reached
import QueryPlan.Proofs.Text.Splitting

/-!
# Plans from their descriptions

Plans with equal descriptions are the same, provided that all annotations carry
literals and that signatures are written without their own punctuation.  Each
text of a description is read back on its own: a literal from its spelling, an
operator from its symbol, a signature from the first of its points, parentheses
and commas.

An empty list of parameters and one empty parameter have the same text.  The
number of arguments, which is that of the children, tells them apart.
-/

namespace QueryPlan

/-! ## Signatures -/

namespace Signature

/-- Names without the punctuation of a signature. -/
structure Plain (signature : Signature) : Prop where
  name : '.' ∉ signature.name.toList ∧ '(' ∉ signature.name.toList
  declaring : ∀ declaring ∈ signature.declaring,
    '.' ∉ declaring.toList ∧ '(' ∉ declaring.toList
  parameters : ∀ parameter ∈ signature.parameters, ',' ∉ parameter.toList

variable {a b : Signature}

theorem Plain.opening_not_mem (ha : a.Plain) : '(' ∉ a.qualifiedName.toList := by
  obtain ⟨declaring, name, parameters⟩ := a
  cases declaring with
  | none => exact ha.name.2
  | some declaring =>
      have hdeclaring := (ha.declaring declaring rfl).2
      have hname := ha.name.2
      simp_all [qualifiedName]

theorem qualifiedName_injective (ha : a.Plain) (hb : b.Plain)
    (heq : a.qualifiedName = b.qualifiedName) :
    a.declaring = b.declaring ∧ a.name = b.name := by
  obtain ⟨declaring, name, parameters⟩ := a
  obtain ⟨declaring', name', parameters'⟩ := b
  have hlist := congrArg String.toList heq
  cases declaring with
  | none =>
      cases declaring' with
      | none => exact ⟨rfl, heq⟩
      | some declaring' =>
          refine absurd ?_ ha.name.1
          simp only [qualifiedName] at hlist
          rw [hlist]
          simp
  | some declaring =>
      cases declaring' with
      | none =>
          refine absurd ?_ hb.name.1
          simp only [qualifiedName] at hlist
          rw [← hlist]
          simp
      | some declaring' =>
          have hfront : ∀ c ∈ declaring.toList, c ≠ '.' := fun c hc =>
            ne_of_mem_of_not_mem hc (ha.declaring declaring rfl).1
          have hfront' : ∀ c ∈ declaring'.toList, c ≠ '.' := fun c hc =>
            ne_of_mem_of_not_mem hc (hb.declaring declaring' rfl).1
          simp only [qualifiedName, String.toList_append, List.append_assoc] at hlist
          obtain ⟨hdeclaring, hname⟩ :=
            Text.split_unique hfront hfront' (by simp) (by simp) hlist
          rw [String.toList_inj.mp hdeclaring,
            String.toList_inj.mp (List.append_cancel_left hname)]
          exact ⟨rfl, rfl⟩

/-- Signatures of one arity are known by their texts. -/
theorem text_injective (ha : a.Plain) (hb : b.Plain) (harity : a.arity = b.arity)
    (htext : a.text = b.text) : a = b := by
  have hlist := congrArg String.toList htext
  simp only [text, String.toList_append, String.toList_intercalate, List.append_assoc]
    at hlist
  have hfront : ∀ c ∈ a.qualifiedName.toList, c ≠ '(' :=
    fun c hc => ne_of_mem_of_not_mem hc ha.opening_not_mem
  have hfront' : ∀ c ∈ b.qualifiedName.toList, c ≠ '(' :=
    fun c hc => ne_of_mem_of_not_mem hc hb.opening_not_mem
  obtain ⟨hname, hrest⟩ := Text.split_unique hfront hfront' (by simp) (by simp) hlist
  obtain ⟨hdeclaring, hname⟩ := qualifiedName_injective ha hb (String.toList_inj.mp hname)
  have hrow := List.append_cancel_right (List.append_cancel_left hrest)
  have hparameters : a.parameters.map String.toList = b.parameters.map String.toList := by
    apply Text.intercalate_injective
    · simpa using ha.parameters
    · simpa using hb.parameters
    · rw [List.map_eq_nil_iff, List.map_eq_nil_iff, ← List.length_eq_zero_iff,
        ← List.length_eq_zero_iff]
      exact iff_of_eq (congrArg (· = 0) harity)
    · simpa using hrow
  have hinjective : Function.Injective String.toList := fun _ _ => String.toList_inj.mp
  have hparameters := List.map_injective_iff.mpr hinjective hparameters
  cases a
  cases b
  simp_all

end Signature

/-! ## Fields and annotations -/

theorem DataType.name_injective {a b : DataType} (hname : a.name = b.name) : a = b := by
  revert hname
  cases a <;> cases b <;> decide

theorem BinaryOperator.symbol_injective {a b : BinaryOperator}
    (hsymbol : a.symbol = b.symbol) : a = b := by
  revert hsymbol
  cases a <;> cases b <;> decide

theorem UnaryOperator.keyword_injective {a b : UnaryOperator}
    (hkeyword : a.keyword = b.keyword) : a = b := by
  revert hkeyword
  cases a <;> cases b <;> decide

theorem Literal.normal_eq_of_text_eq {a b : Literal} (htext : a.text = b.text) :
    a.normal = b.normal := by
  have hnormal : ∀ value : Literal, value.bare.normal = value.normal := by
    intro value
    cases value with
    | float x =>
        rw [bare]
        split
        · rename_i hnan
          have hquiet : Binary64.quietNaN.isNaN = true := by decide
          simp [normal, Binary64.canonical, hnan, hquiet]
        · rfl
    | _ => rfl
  rw [← hnormal a, text_injective htext, hnormal b]

def Label.Plain : Label → Prop
  | call signature _ => signature.Plain
  | _ => True

/-- Labels of the same constructor, joins of the same form. -/
inductive Label.Corresponds : Label → Label → Prop
  | table (name : String) (schema aliasName : Option String) (name' : String)
      (schema' aliasName' : Option String) :
      Corresponds (.table name schema aliasName) (.table name' schema' aliasName')
  | join (form : JoinForm) : Corresponds (.join form) (.join form)
  | joinOn (form : PredicateJoinForm) : Corresponds (.joinOn form) (.joinOn form)
  | column (qualifier : Option String) (name : String) (type : DataType)
      (qualifier' : Option String) (name' : String) (type' : DataType) :
      Corresponds (.column qualifier name type) (.column qualifier' name' type')
  | constant (value : Literal) (type : DataType) (value' : Literal) (type' : DataType) :
      Corresponds (.constant value type) (.constant value' type')
  | parameter (name : String) (type : DataType) (name' : String) (type' : DataType) :
      Corresponds (.parameter name type) (.parameter name' type')
  | binary (op op' : BinaryOperator) : Corresponds (.binary op) (.binary op')
  | unary (op op' : UnaryOperator) : Corresponds (.unary op) (.unary op')
  | call (signature : Signature) (type : DataType) (signature' : Signature)
      (type' : DataType) : Corresponds (.call signature type) (.call signature' type')

theorem Label.corresponds_of_kind_eq {a b : Label} (hkind : a.kind = b.kind) :
    Corresponds a b := by
  cases a with
  | join form =>
      cases form <;> cases b with
      | join form' | joinOn form' => cases form' <;> first | constructor | cases hkind
      | _ => cases hkind
  | joinOn form =>
      cases form <;> cases b with
      | join form' | joinOn form' => cases form' <;> first | constructor | cases hkind
      | _ => cases hkind
  | _ =>
      cases b with
      | join form' | joinOn form' => cases form' <;> cases hkind
      | _ => first | constructor | cases hkind

theorem Label.normal_eq_of_details_eq {a b : Label} (ha : a.Plain) (hb : b.Plain)
    {types types' : List DataType} (hkind : a.kind = b.kind) (harity : a.arity = b.arity)
    (hdetails : a.details (a.typeOf types) = b.details (b.typeOf types')) :
    a.normal = b.normal := by
  cases corresponds_of_kind_eq hkind with
  | table name schema aliasName name' schema' aliasName' =>
      cases schema <;> cases schema' <;> cases aliasName <;> cases aliasName' <;>
        simp_all [details, Pair.ofOption]
  | join form => rfl
  | joinOn form => rfl
  | column qualifier name type qualifier' name' type' =>
      have htype : type.name = type'.name → type = type' := DataType.name_injective
      cases qualifier <;> cases qualifier' <;> simp_all [details, Pair.ofOption, typeOf]
  | constant value type value' type' =>
      obtain ⟨htype, htext⟩ : type.name = type'.name ∧ value.text = value'.text := by
        simpa [details, typeOf] using hdetails
      rw [normal, normal, DataType.name_injective htype, Literal.normal_eq_of_text_eq htext]
  | parameter name type name' type' =>
      obtain ⟨htype, rfl⟩ : type.name = type'.name ∧ name = name' := by
        simpa [details, typeOf] using hdetails
      rw [DataType.name_injective htype]
  | binary op op' =>
      have hop : op.symbol = op'.symbol := by simp_all [details]
      rw [BinaryOperator.symbol_injective hop]
  | unary op op' =>
      have hop : op.keyword = op'.keyword := by simp_all [details]
      rw [UnaryOperator.keyword_injective hop]
  | call signature type signature' type' =>
      obtain ⟨htype, htext⟩ : type.name = type'.name ∧ signature.text = signature'.text := by
        simpa [details, typeOf] using hdetails
      rw [DataType.name_injective htype, Signature.text_injective ha hb harity htext]

section

variable [ForeignTypes]

/-- Annotations that carry literals. -/
def Annotations.Literals (annotations : Annotations) : Prop :=
  ∀ note ∈ annotations.notes, ∃ value, note.value = .literal value

theorem Annotations.WellFormed.normal_eq_of_pairs_eq {a b : Annotations}
    (ha : a.WellFormed) (hb : b.WellFormed) (hliteralsA : a.Literals)
    (hliteralsB : b.Literals) (hpairs : a.pairs = b.pairs) : a.normal = b.normal := by
  rw [ha.normal_eq_iff hb, map_eq_map_iff_forall₂]
  obtain ⟨hlength, hpair⟩ := List.forall₂_iff_get.mp (map_eq_map_iff_forall₂.mp hpairs)
  refine List.forall₂_iff_get.mpr ⟨hlength, fun place hplace hplace' => ?_⟩
  obtain ⟨hname, htext⟩ := Pair.mk.inj (hpair place hplace hplace')
  obtain ⟨value, hvalue⟩ := hliteralsA _ (List.get_mem _ ⟨place, hplace⟩)
  obtain ⟨value', hvalue'⟩ := hliteralsB _ (List.get_mem _ ⟨place, hplace'⟩)
  rw [hvalue, hvalue'] at htext
  rw [Note.normal, Note.normal, hname, hvalue, hvalue', NoteValue.normal,
    NoteValue.normal, Literal.normal_eq_of_text_eq htext]

/-! ## Plans -/

/-- Whether a description of the plan can be read back: its annotations carry
literals, and its signatures are plain. -/
def Node.Describable (node : Node) : Prop :=
  ∀ part ∈ node.preorder, part.annotations.Literals ∧ part.label.Plain

namespace Node

theorem describable_iff {node : Node} :
    node.Describable ↔ (node.annotations.Literals ∧ node.label.Plain) ∧
      ∀ child ∈ node.children, child.Describable :=
  forall_mem_preorder_iff

theorem describeAll_eq_map (nodes : List Node) : describeAll nodes = nodes.map describe := by
  induction nodes with
  | nil => rfl
  | cons node rest ih => rw [describeAll, ih, List.map_cons]

theorem describe_eq (node : Node) :
    node.describe = ⟨node.kind, node.label.details node.type, node.annotations.pairs,
      node.children.map describe⟩ := by
  cases node
  rw [describe, describeAll_eq_map]
  rfl

theorem normal_eq_of_describe_eq {a b : Node} (ha : a.Whole) (hb : b.Whole)
    (hdescribableA : a.Describable) (hdescribableB : b.Describable)
    (hdescribe : a.describe = b.describe) : a.normal = b.normal := by
  induction a using Node.inductionOn generalizing b with
  | step a ih =>
      obtain ⟨hwellA, hpartsA⟩ := whole_iff.mp ha
      obtain ⟨hwellB, hpartsB⟩ := whole_iff.mp hb
      obtain ⟨⟨hliteralsA, hplainA⟩, hchildrenA⟩ := describable_iff.mp hdescribableA
      obtain ⟨⟨hliteralsB, hplainB⟩, hchildrenB⟩ := describable_iff.mp hdescribableB
      rw [describe_eq, describe_eq, hwellA.type_eq, hwellB.type_eq] at hdescribe
      obtain ⟨hkind, hdetails, hpairs, hchildren⟩ := Description.mk.inj hdescribe
      have harity : a.label.arity = b.label.arity := by
        rw [← hwellA.arity, ← hwellB.arity]
        simpa using congrArg List.length hchildren
      rw [hwellA.normal_eq, hwellB.normal_eq,
        Label.normal_eq_of_details_eq hplainA hplainB hkind harity hdetails,
        hwellA.annotations.normal_eq_of_pairs_eq hwellB.annotations hliteralsA hliteralsB
          hpairs]
      congr 1
      rw [map_eq_map_iff_forall₂] at hchildren ⊢
      obtain ⟨hlength, hchild⟩ := List.forall₂_iff_get.mp hchildren
      refine List.forall₂_iff_get.mpr ⟨hlength, fun place hplace hplace' => ?_⟩
      have hmem := List.get_mem _ ⟨place, hplace⟩
      have hmem' := List.get_mem _ ⟨place, hplace'⟩
      exact ih _ hmem (hpartsA _ hmem) (hpartsB _ hmem') (hchildrenA _ hmem)
        (hchildrenB _ hmem') (hchild place hplace hplace')

end Node

open Session

/-- Known plans with equal descriptions are the same. -/
theorem same_of_describe_eq {session : Session} (hreached : session.Reached) {a b : Node}
    (ha : session.Knows a) (hb : session.Knows b) (hdescribableA : a.Describable)
    (hdescribableB : b.Describable) (hdescribe : a.describe = b.describe) :
    a.same b = true := by
  have hlawful : a.Lawful := by
    intro part hpart note hnote
    obtain ⟨value, hvalue⟩ := (hdescribableA part hpart).1 note hnote
    rw [hvalue]
    trivial
  exact hlawful.same_of_normal_eq (Node.normal_eq_of_describe_eq (hreached.sound.whole ha)
    (hreached.sound.whole hb) hdescribableA hdescribableB hdescribe)

end

open Session
open scoped Hints

/-- Two annotated calls on NaNs with other bits, of a function with one parameter
whose type has an empty name. -/
theorem same_of_describe_eq_calls :
    ∃ (session : Session) (a b : Node), session.Reached ∧ session.Knows a ∧
      session.Knows b ∧ a.handle ≠ b.handle ∧ a.annotations.notes ≠ [] ∧
      a.children.map (·.label) ≠ b.children.map (·.label) ∧
      a.describe = b.describe ∧ a.same b = true := by
  let one : Note := ⟨"k", .literal (.int 1)⟩
  let label : Label := .call ⟨some "Math", "Sign", [""]⟩ .integer
  let nan := (Label.constant (.float ⟨0x7ff8000000000000⟩) .float).node 0 .empty []
  let call := label.node 1 .empty [nan]
  let a := label.node 2 ⟨some 2, [("k", one)]⟩ [nan]
  let nan' := (Label.constant (.float ⟨0xfff8000000000001⟩) .float).node 3 .empty []
  let call' := label.node 4 .empty [nan']
  let b := label.node 5 ⟨some 5, [("k", one)]⟩ [nan']
  let session : Session := ⟨6, [b, call', nan', a, call, nan]⟩
  have hnan : Reached ⟨1, [nan]⟩ := (Reached.start 0).assemble (by simp) rfl
  have hcall : Reached ⟨2, [call, nan]⟩ := hnan.assemble (by simp) rfl
  have ha : Reached ⟨3, [a, call, nan]⟩ :=
    hcall.call _ (.annotate call "k" (.literal (.int 1))
      (knows_of_mem_held List.mem_cons_self)) rfl
  have hnan' : Reached ⟨4, [nan', a, call, nan]⟩ := ha.assemble (by simp) rfl
  have hcall' : Reached ⟨5, [call', nan', a, call, nan]⟩ := hnan'.assemble (by simp) rfl
  have hreached : session.Reached :=
    hcall'.call _ (.annotate call' "k" (.literal (.int 1))
      (knows_of_mem_held List.mem_cons_self)) rfl
  have hknowsA : session.Knows a := knows_of_mem_held (by simp [session])
  have hknowsB : session.Knows b := knows_of_mem_held (by simp [session])
  have hplain : label.Plain := ⟨by decide, by decide, by decide⟩
  have hleaf : ∀ (x : Binary64) (handle : Handle),
      ((Label.constant (.float x) .float).node handle .empty []).Describable := by
    intro x handle
    refine Node.describable_iff.mpr ⟨⟨?_, trivial⟩, by simp⟩
    simp [Annotations.Literals, Annotations.notes, Annotations.empty]
  have hliterals : ∀ storage, Annotations.Literals ⟨storage, [("k", one)]⟩ := by
    intro storage note hnote
    obtain rfl : note = one := by simpa [Annotations.notes] using hnote
    exact ⟨_, rfl⟩
  have hdescribableA : a.Describable :=
    Node.describable_iff.mpr ⟨⟨hliterals _, hplain⟩, by simpa [a] using hleaf _ 0⟩
  have hdescribableB : b.Describable :=
    Node.describable_iff.mpr ⟨⟨hliterals _, hplain⟩, by simpa [b] using hleaf _ 3⟩
  have hdescribe : a.describe = b.describe := by
    have htext : Binary64.text ⟨0x7ff8000000000000⟩ = Binary64.text ⟨0xfff8000000000001⟩ := by
      decide
    simp [Node.describe_eq, a, b, nan, nan', Node.kind, Label.details, Label.kind,
      Label.typeOf, Annotations.pairs, Annotations.notes, Literal.text, htext]
  have hsame := same_of_describe_eq hreached hknowsA hknowsB hdescribableA hdescribableB
    hdescribe
  exact ⟨session, a, b, hreached, hknowsA, hknowsB, by decide, by decide, by decide,
    hdescribe, hsame⟩

end QueryPlan
