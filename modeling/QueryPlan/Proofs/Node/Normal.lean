import QueryPlan.Node.Equality
import QueryPlan.Proofs.Annotations.Foreign
import QueryPlan.Proofs.Node.WellFormed

/-!
# Normal forms

The normal form of a plan forgets its handles and storages, writes every float
by the pattern that stands for its class and puts the representative of every
foreign value in its place.  What is left is what equality compares.  Kinds,
categories and types are those of the plan itself, so that every check decides
alike on a plan and on its normal form.
-/

namespace QueryPlan

theorem Binary64.isNaN_canonical (x : Binary64) : x.canonical.isNaN = x.isNaN := by
  unfold canonical
  by_cases hnan : x.isNaN
  · simp only [hnan, if_true]
    decide
  · by_cases hzero : x.isZero
    · simp only [hnan, hzero, if_true]
      decide
    · simp [hnan, hzero]

theorem Binary64.isZero_canonical (x : Binary64) : x.canonical.isZero = x.isZero := by
  unfold canonical
  by_cases hnan : x.isNaN
  · have hzero : x.isZero = false := by
      simp only [isNaN, Bool.and_eq_true, decide_eq_true_eq] at hnan
      simp [isZero, hnan.1]
    simp only [hnan, hzero, if_true]
    decide
  · by_cases hzero : x.isZero
    · simp only [hnan, hzero, if_true]
      decide
    · simp [hnan, hzero]

theorem Binary64.same_iff_canonical_eq (x y : Binary64) :
    x.same y = true ↔ x.canonical = y.canonical := by
  constructor
  · intro hsame
    simp only [same, Bool.or_eq_true, Bool.and_eq_true, decide_eq_true_eq] at hsame
    rcases hsame with (rfl | ⟨hx, hy⟩) | ⟨hx, hy⟩
    · rfl
    · simp [canonical, hx, hy]
    · have hnan : ∀ z : Binary64, z.isZero → z.isNaN = false := by
        intro z hz
        simp only [isZero, Bool.and_eq_true, decide_eq_true_eq] at hz
        simp [isNaN, hz.1]
      simp [canonical, hx, hy, hnan x hx, hnan y hy]
  · intro heq
    have hnan := congrArg isNaN heq
    have hzero := congrArg isZero heq
    rw [isNaN_canonical, isNaN_canonical] at hnan
    rw [isZero_canonical, isZero_canonical] at hzero
    simp only [same, hnan, hzero, Bool.and_self, Bool.or_eq_true, decide_eq_true_eq]
    by_cases hy : y.isNaN
    · exact .inl (.inr hy)
    · by_cases hy' : y.isZero
      · exact .inr hy'
      · refine .inl (.inl ?_)
        simpa [canonical, hnan, hzero, hy, hy'] using heq

/-! ## Labels and annotations -/

namespace Literal

def normal : Literal → Literal
  | float value => .float value.canonical
  | value => value

theorem same_iff_normal_eq (a b : Literal) :
    a.same b = true ↔ a.normal = b.normal := by
  cases a <;> cases b <;> simp [same, normal, Binary64.same_iff_canonical_eq]

end Literal

namespace Label

def normal : Label → Label
  | constant value type => .constant value.normal type
  | label => label

variable (label : Label)

@[simp] theorem kind_normal : label.normal.kind = label.kind := by
  cases label <;> rfl

@[simp] theorem category_normal : label.normal.category = label.category := by
  simp [category]

@[simp] theorem arity_normal : label.normal.arity = label.arity := by
  cases label <;> rfl

@[simp] theorem slotCategory_normal (place : Nat) :
    label.normal.slotCategory place = label.slotCategory place := by
  cases label <;> rfl

@[simp] theorem typeOf_normal (types : List DataType) :
    label.normal.typeOf types = label.typeOf types := by
  cases label <;> rfl

theorem same_iff_normal_eq (a b : Label) :
    a.same b = true ↔ a.normal = b.normal := by
  cases a <;> cases b <;> simp [same, normal, Literal.same_iff_normal_eq]

end Label

variable [ForeignTypes]

open ForeignTypes (LawfulEqual)

namespace NoteValue

noncomputable def normal : NoteValue → NoteValue
  | literal value => .literal value.normal
  | foreign value => .foreign value.representative

theorem normal_eq_of_same {a b : NoteValue} (hsame : a.same b = true) :
    a.normal = b.normal := by
  cases a <;> cases b
  case literal.literal a b =>
    rw [normal, normal, (Literal.same_iff_normal_eq a b).mp hsame]
  case foreign.foreign a b =>
    rw [normal, normal, Foreign.representative_eq_of_same hsame]
  all_goals cases hsame

/-- Whether a value is compared by an equivalence, as literals always are. -/
def Lawful : NoteValue → Prop
  | literal _ => True
  | foreign _ => LawfulEqual

theorem lawful [LawfulEqual] (value : NoteValue) : value.Lawful := by
  cases value with
  | literal value => trivial
  | foreign value => exact inferInstanceAs LawfulEqual

theorem Lawful.same_iff {a : NoteValue} (ha : a.Lawful) (b : NoteValue) :
    a.same b = true ↔ a.normal = b.normal := by
  refine ⟨normal_eq_of_same, fun hnormal => ?_⟩
  cases a <;> cases b
  case literal.literal a b =>
    exact (Literal.same_iff_normal_eq a b).mpr (NoteValue.literal.inj hnormal)
  case foreign.foreign a b =>
    have hlawful : LawfulEqual := ha
    exact Foreign.same_iff_representative_eq.mpr (NoteValue.foreign.inj hnormal)
  all_goals cases hnormal

theorem same_iff_normal_eq [LawfulEqual] (a b : NoteValue) :
    a.same b = true ↔ a.normal = b.normal :=
  a.lawful.same_iff b

end NoteValue

namespace Note

noncomputable def normal (note : Note) : Note :=
  ⟨note.name, note.value.normal⟩

theorem map_normal_eq_of_sameAll {as bs : List Note} (hsame : sameAll as bs = true) :
    as.map normal = bs.map normal := by
  induction as generalizing bs with
  | nil =>
      cases bs with
      | nil => rfl
      | cons => cases hsame
  | cons a as ih =>
      cases bs with
      | nil => cases hsame
      | cons b bs =>
          simp only [sameAll, same, Bool.and_eq_true, decide_eq_true_eq] at hsame
          obtain ⟨⟨hname, hvalue⟩, hrest⟩ := hsame
          rw [List.map_cons, List.map_cons, ih hrest, normal, normal, hname,
            NoteValue.normal_eq_of_same hvalue]

theorem sameAll_of_map_normal_eq {as bs : List Note}
    (hlawful : ∀ note ∈ as, note.value.Lawful) (hnormal : as.map normal = bs.map normal) :
    sameAll as bs = true := by
  induction as generalizing bs with
  | nil =>
      obtain rfl := List.map_eq_nil_iff.mp hnormal.symm
      rfl
  | cons a as ih =>
      cases bs with
      | nil => cases hnormal
      | cons b bs =>
          obtain ⟨hfirst, hrest⟩ := List.cons.inj hnormal
          obtain ⟨hname, hvalue⟩ := Note.mk.inj hfirst
          obtain ⟨hlaw, hlaws⟩ := List.forall_mem_cons.mp hlawful
          simp [sameAll, same, hname, (hlaw.same_iff _).mpr hvalue, ih hlaws hrest]

theorem sameAll_iff_normal_eq [LawfulEqual] (as bs : List Note) :
    sameAll as bs = true ↔ as.map normal = bs.map normal :=
  ⟨map_normal_eq_of_sameAll, sameAll_of_map_normal_eq fun note _ => note.value.lawful⟩

end Note

namespace Annotations

noncomputable def normal (annotations : Annotations) : Annotations where
  storage := annotations.storage.map fun _ => 0
  entries := annotations.entries.map fun (key, note) => (key, note.normal)

theorem notes_normal (annotations : Annotations) :
    annotations.normal.notes = annotations.notes.map Note.normal := by
  simp [notes, normal]

theorem WellFormed.normal {annotations : Annotations}
    (hannotations : annotations.WellFormed) : annotations.normal.WellFormed := by
  constructor
  · simpa [Annotations.normal, List.pairwise_map] using hannotations.sorted
  · intro entry hentry
    obtain ⟨old, hold, rfl⟩ := List.mem_map.mp hentry
    exact hannotations.keyed old hold
  · simpa [Annotations.normal] using hannotations.allocated

/-- A well-formed set is known by its storage, up to the handle, and its
notes. -/
theorem WellFormed.normal_eq_iff {a b : Annotations} (ha : a.WellFormed)
    (hb : b.WellFormed) :
    a.normal = b.normal ↔ a.notes.map Note.normal = b.notes.map Note.normal := by
  have hentries : ∀ {set : Annotations}, set.WellFormed →
      set.normal.entries =
        (set.notes.map Note.normal).map fun note => (note.name, note) := by
    intro set hset
    simp only [Annotations.normal, notes, List.map_map]
    apply List.map_congr_left
    intro entry hentry
    simp [Note.normal, hset.keyed entry hentry]
  constructor
  · intro heq
    rw [← notes_normal, ← notes_normal, heq]
  · intro heq
    have hentries : a.normal.entries = b.normal.entries := by
      rw [hentries ha, hentries hb, heq]
    have hstorage : a.normal.storage = b.normal.storage := by
      have hiff : a.normal.storage.isSome ↔ b.normal.storage.isSome := by
        rw [ha.normal.allocated, hb.normal.allocated, hentries]
      simp only [Annotations.normal] at hiff ⊢
      cases hstorageA : a.storage <;> cases hstorageB : b.storage <;>
        simp_all
    cases ha' : a.normal
    cases hb' : b.normal
    simp_all

end Annotations

/-! ## Nodes -/

namespace Node

mutual

noncomputable def normal (node : Node) : Node :=
  match node with
  | ⟨_, label, type, annotations, children⟩ =>
    ⟨0, label.normal, type, annotations.normal, normalAll children⟩

noncomputable def normalAll : List Node → List Node
  | [] => []
  | node :: rest => normal node :: normalAll rest

end

theorem normalAll_eq_map (nodes : List Node) : normalAll nodes = nodes.map normal := by
  induction nodes with
  | nil => rfl
  | cons node rest ih => rw [normalAll, ih, List.map_cons]

section Fields

variable (node : Node)

@[simp] theorem normal_label : node.normal.label = node.label.normal := by
  cases node
  rfl

@[simp] theorem normal_type : node.normal.type = node.type := by
  cases node
  rfl

@[simp] theorem normal_annotations :
    node.normal.annotations = node.annotations.normal := by
  cases node
  rfl

@[simp] theorem normal_children :
    node.normal.children = node.children.map normal := by
  cases node
  simp [normal, normalAll_eq_map]

@[simp] theorem normal_kind : node.normal.kind = node.kind := by
  simp [kind]

@[simp] theorem normal_category : node.normal.category = node.category := by
  simp [category]

theorem normal_predicate? :
    node.normal.predicate? = node.predicate?.map normal := by
  unfold predicate?
  split <;> simp_all

end Fields

theorem parts_normal_eq {a b : Node} (hnormal : a.normal = b.normal) :
    a.label.normal = b.label.normal ∧ a.annotations.normal = b.annotations.normal ∧
      List.Forall₂ (fun x y : Node => x.normal = y.normal) a.children b.children := by
  refine ⟨?_, ?_, map_eq_map_iff_forall₂.mp ?_⟩
  · simpa using congrArg label hnormal
  · simpa using congrArg annotations hnormal
  · simpa using congrArg children hnormal

/-- Whether all values in a plan are compared by equivalences. -/
def Lawful (node : Node) : Prop :=
  ∀ part ∈ node.preorder, ∀ note ∈ part.annotations.notes, note.value.Lawful

theorem lawful [LawfulEqual] (node : Node) : node.Lawful :=
  fun _ _ note _ => note.value.lawful

theorem lawful_iff {node : Node} :
    node.Lawful ↔ (∀ note ∈ node.annotations.notes, note.value.Lawful) ∧
      ∀ child ∈ node.children, child.Lawful :=
  forall_mem_preorder_iff

theorem preorder_normal (node : Node) :
    node.normal.preorder = node.preorder.map normal := by
  induction node using Node.inductionOn with
  | step node ih =>
      rw [preorder_eq, preorder_eq, List.map_cons, normal_children, List.flatMap_map,
        List.map_flatMap, List.flatMap_congr ih]

theorem normal_mem_preorder {part node : Node} (hpart : part ∈ node.preorder) :
    part.normal ∈ node.normal.preorder := by
  rw [preorder_normal]
  exact List.mem_map_of_mem hpart

theorem WellFormed.normal {node : Node} (hnode : node.WellFormed) :
    node.normal.WellFormed := by
  constructor
  · simpa [Function.comp_def] using hnode.type_eq
  · intro predicate hpredicate
    rw [normal_predicate?] at hpredicate
    obtain ⟨old, hold, rfl⟩ := Option.map_eq_some_iff.mp hpredicate
    simpa using hnode.predicate old hold
  · simpa using hnode.arity
  · intro place child hchild
    simp only [normal_children, List.getElem?_map, Option.map_eq_some_iff] at hchild
    obtain ⟨old, hold, rfl⟩ := hchild
    simpa using hnode.categories place old hold
  · simpa using hnode.annotations.normal

theorem Whole.normal {node : Node} (hnode : node.Whole) : node.normal.Whole := by
  induction node using Node.inductionOn with
  | step node ih =>
      obtain ⟨hwell, hchildren⟩ := whole_iff.mp hnode
      refine whole_iff.mpr ⟨hwell.normal, ?_⟩
      intro child hchild
      rw [normal_children] at hchild
      obtain ⟨old, hold, rfl⟩ := List.mem_map.mp hchild
      exact ih old hold (hchildren old hold)

/-- A well-formed node is known by its label, annotations and children. -/
theorem WellFormed.normal_eq {node : Node} (hnode : node.WellFormed) :
    node.normal =
      node.label.normal.node 0 node.annotations.normal
        (node.children.map Node.normal) := by
  have htype := hnode.normal.type_eq
  cases node with
  | mk handle label type annotations children =>
      simpa [Node.normal, normalAll_eq_map, Label.node] using htype

end Node

end QueryPlan
