import QueryPlan.Proofs.Node.Updating
import QueryPlan.Proofs.Session.Basic

/-!
# Sound sessions

In a sound session every known node is well formed, and identity can be told by
handles: nodes with one handle are one node, annotation sets with one storage
are one set, and no handle that is still to come was used.

A call either keeps a known node or makes a new one over known children.  Both
keep a session sound.
-/

namespace QueryPlan

variable [ForeignTypes]

namespace Session

structure Sound (session : Session) : Prop where
  wellFormed : ∀ node, session.Knows node → node.WellFormed
  bounded : ∀ node, session.Knows node → node.handle < session.next
  storageBounded : ∀ node handle, session.Knows node →
    node.annotations.storage = some handle → handle < session.next
  coherent : ∀ a b, session.Knows a → session.Knows b →
    a.handle = b.handle → a = b
  storages : ∀ a b, session.Knows a → session.Knows b →
    a.annotations.storage = b.annotations.storage → a.annotations = b.annotations

/-- A node that a session makes under its next handle. -/
structure New (session : Session) (node : Node) : Prop where
  handle : node.handle = session.next
  children : ∀ child ∈ node.children, session.Knows child
  wellFormed : node.WellFormed
  /-- The annotations are none, new ones, or those of a known node. -/
  storage : node.annotations = .empty ∨
    node.annotations.storage = some session.next ∨
    ∃ old, session.Knows old ∧ old.annotations = node.annotations

/-- A call keeps a known node, makes a new one, or fails before it draws a
handle. -/
def Makes (session : Session) : EStateM.Result NodeError Handle Node → Prop
  | .ok node next =>
      (session.Knows node ∧ next = session.next) ∨
        (session.New node ∧ next = session.next + 1)
  | .error _ next => next = session.next

theorem sound_start (next : Handle) : Sound ⟨next, []⟩ := by
  constructor <;> simp [Knows]

theorem Sound.whole {session : Session} (hsound : session.Sound) {node : Node}
    (hnode : session.Knows node) : node.Whole :=
  fun part hpart => hsound.wellFormed part (hnode.part hpart)

/-- Known nodes with the same handles are the same nodes. -/
theorem Sound.eq_of_areAll {session : Session} (hsound : session.Sound)
    {nodes others : List Node} (hnodes : ∀ node ∈ nodes, session.Knows node)
    (hothers : ∀ other ∈ others, session.Knows other)
    (hare : Node.areAll nodes others = true) : nodes = others := by
  induction nodes generalizing others with
  | nil => cases others <;> simp_all [Node.areAll]
  | cons node nodes ih =>
      cases others with
      | nil => simp [Node.areAll] at hare
      | cons other others =>
          simp only [Node.areAll, Node.is, Bool.and_eq_true, decide_eq_true_eq] at hare
          rw [hsound.coherent node other (hnodes node List.mem_cons_self)
              (hothers other List.mem_cons_self) hare.1,
            ih (fun node hnode => hnodes node (List.mem_cons_of_mem _ hnode))
              (fun other hother => hothers other (List.mem_cons_of_mem _ hother)) hare.2]

theorem Sound.weaken {session later : Session} (hlater : later.Sound)
    (hnext : later.next ≤ session.next) (hknown : later.Extends session) :
    session.Sound where
  wellFormed node hnode := hlater.wellFormed node (hknown node hnode)
  bounded node hnode :=
    lt_of_lt_of_le (hlater.bounded node (hknown node hnode)) hnext
  storageBounded node handle hnode hstorage :=
    lt_of_lt_of_le
      (hlater.storageBounded node handle (hknown node hnode) hstorage) hnext
  coherent a b ha hb := hlater.coherent a b (hknown a ha) (hknown b hb)
  storages a b ha hb := hlater.storages a b (hknown a ha) (hknown b hb)

theorem Sound.cons_known {session : Session} (hsound : session.Sound)
    {node : Node} (hnode : session.Knows node) :
    Sound ⟨session.next, node :: session.held⟩ := by
  refine hsound.weaken (le_refl session.next) ?_
  intro part hpart
  rcases (knows_cons_iff session.next session.next).mp hpart with hpart | hpart
  · exact hnode.part hpart
  · exact hpart

theorem New.knows_cons_iff {session : Session} {node part : Node}
    (hnew : session.New node) (next : Handle) :
    Knows ⟨next, node :: session.held⟩ part ↔ part = node ∨ session.Knows part := by
  rw [Session.knows_cons_iff next session.next, Node.mem_preorder_iff]
  constructor
  · rintro ((rfl | ⟨child, hchild, hpart⟩) | hpart)
    · exact .inl rfl
    · exact .inr ((hnew.children child hchild).part hpart)
    · exact .inr hpart
  · rintro (rfl | hpart)
    · exact .inl (.inl rfl)
    · exact .inr hpart

/-- The annotations of a new node with the storage of a known node are those of
the known node. -/
theorem New.annotations_eq {session : Session} (hsound : session.Sound)
    {node other : Node} (hnew : session.New node) (hother : session.Knows other)
    (hstorage : node.annotations.storage = other.annotations.storage) :
    node.annotations = other.annotations := by
  rcases hnew.storage with hempty | hnext | ⟨old, hold, heq⟩
  · have hnone : other.annotations.storage = none := by
      rw [← hstorage, hempty]
      rfl
    have hentries : other.annotations.entries = [] := by
      by_contra hne
      have hsome := (hsound.wellFormed other hother).annotations.allocated.mpr hne
      simp [hnone] at hsome
    cases hannotations : other.annotations with
    | mk storage entries =>
        rw [hannotations] at hnone hentries
        rw [hempty, Annotations.empty]
        exact congrArg₂ Annotations.mk hnone.symm hentries.symm
  · have hlt := hsound.storageBounded other session.next hother
      (hstorage.symm.trans hnext)
    exact absurd hlt (lt_irrefl session.next)
  · rw [← heq] at hstorage ⊢
    exact hsound.storages old other hold hother hstorage

theorem Sound.cons_new {session : Session} (hsound : session.Sound)
    {node : Node} (hnew : session.New node) :
    Sound ⟨session.next + 1, node :: session.held⟩ := by
  have hhandle : ∀ part, session.Knows part → part.handle ≠ node.handle := by
    intro part hpart heq
    have hlt := hsound.bounded part hpart
    rw [heq, hnew.handle] at hlt
    exact lt_irrefl _ hlt
  constructor
  · intro part hpart
    rcases (hnew.knows_cons_iff _).mp hpart with rfl | hpart
    · exact hnew.wellFormed
    · exact hsound.wellFormed part hpart
  · intro part hpart
    rcases (hnew.knows_cons_iff _).mp hpart with rfl | hpart
    · exact hnew.handle ▸ Nat.lt_succ_self _
    · exact Nat.lt_succ_of_lt (hsound.bounded part hpart)
  · intro part handle hpart hstorage
    rcases (hnew.knows_cons_iff _).mp hpart with rfl | hpart
    · rcases hnew.storage with hempty | hnext | ⟨old, hold, heq⟩
      · simp [hempty, Annotations.empty] at hstorage
      · rw [hstorage] at hnext
        exact Nat.lt_succ_of_le (le_of_eq (Option.some.inj hnext))
      · rw [← heq] at hstorage
        exact Nat.lt_succ_of_lt (hsound.storageBounded old handle hold hstorage)
    · exact Nat.lt_succ_of_lt (hsound.storageBounded part handle hpart hstorage)
  · intro a b ha hb heq
    rcases (hnew.knows_cons_iff _).mp ha with rfl | hknowsA <;>
      rcases (hnew.knows_cons_iff _).mp hb with rfl | hknowsB
    · rfl
    · exact absurd heq.symm (hhandle b hknowsB)
    · exact absurd heq (hhandle a hknowsA)
    · exact hsound.coherent a b hknowsA hknowsB heq
  · intro a b ha hb hstorage
    rcases (hnew.knows_cons_iff _).mp ha with rfl | hknowsA <;>
      rcases (hnew.knows_cons_iff _).mp hb with rfl | hknowsB
    · rfl
    · exact hnew.annotations_eq hsound hknowsB hstorage
    · exact (hnew.annotations_eq hsound hknowsA hstorage.symm).symm
    · exact hsound.storages a b hknowsA hknowsB hstorage

theorem Makes.sound {session : Session} (hsound : session.Sound) {node : Node}
    {next : Handle} (hmakes : session.Makes (.ok node next)) :
    Sound ⟨next, node :: session.held⟩ := by
  rcases hmakes with ⟨hnode, rfl⟩ | ⟨hnew, rfl⟩
  · exact hsound.cons_known hnode
  · exact hsound.cons_new hnew

/-! ## What calls make -/

/-- Calls that answer one node, made of known nodes.  Rebuilding a node gets
children of the right categories; of the other calls each checks what it is
given. -/
inductive Call (session : Session) : Build Node → Prop
  | assemble (label : Label) (children : List Node) :
      (∀ child ∈ children, session.Knows child) →
      Call session (Node.assemble label children)
  | compose (label : Label) (children : List Node) (old : Node) :
      (∀ child ∈ children, session.Knows child) →
      label.checkCategories 0 children = .ok () → session.Knows old →
      Call session (Node.compose label old.annotations children)
  | annotate (node : Node) (name : String) (value : NoteValue) :
      session.Knows node → Call session (node.annotate name value)
  | update (node : Node) (children : List Node) :
      session.Knows node → (∀ child ∈ children, session.Knows child) →
      node.label.checkCategories 0 children = .ok () →
      Call session (node.update children)
  | updateChildren (node : Node) (children : List Node) :
      session.Knows node → (∀ child ∈ children, session.Knows child) →
      Call session (node.updateChildren children)
  | updateTable (node table : Node) :
      session.Knows node → session.Knows table →
      node.kind.isPredicateJoin → table.category = .source →
      Call session (node.updateTable table)
  | withSignature (node : Node) (signature : Signature) :
      session.Knows node → Call session (node.withSignature signature)

variable {session : Session}

/-- Composing over known children of the right categories, with no annotations
or with those of a known node. -/
theorem Sound.makes_compose (hsound : session.Sound) {label : Label}
    {annotations : Annotations} {children : List Node}
    (hchildren : ∀ child ∈ children, session.Knows child)
    (hcategories : label.checkCategories 0 children = .ok ())
    (hannotations : annotations = .empty ∨
      ∃ old, session.Knows old ∧ old.annotations = annotations) :
    session.Makes (Node.compose label annotations children session.next) := by
  have hwell : annotations.WellFormed := by
    rcases hannotations with rfl | ⟨old, hold, rfl⟩
    · exact Annotations.wellFormed_empty
    · exact (hsound.wellFormed old hold).annotations
  rw [Node.compose_eq]
  cases hparts : label.checkParts children with
  | error fault => rfl
  | ok =>
      refine .inr ⟨⟨rfl, hchildren, ?_, ?_⟩, rfl⟩
      · exact Label.wellFormed_node hcategories hparts hwell
      · exact hannotations.imp id .inr

theorem Sound.makes_update (hsound : session.Sound) {node : Node}
    {children : List Node} (hnode : session.Knows node)
    (hchildren : ∀ child ∈ children, session.Knows child)
    (hcategories : node.label.checkCategories 0 children = .ok ()) :
    session.Makes (node.update children session.next) := by
  unfold Node.update
  split
  · exact .inl ⟨hnode, rfl⟩
  · exact hsound.makes_compose hchildren hcategories (.inr ⟨node, hnode, rfl⟩)

theorem Sound.makes_annotate (hsound : session.Sound) {node : Node}
    (hnode : session.Knows node) (name : String) (value : NoteValue) :
    session.Makes (node.annotate name value session.next) := by
  have hwell := hsound.wellFormed node hnode
  by_cases hhas : node.annotations.has name value
  · simp only [Node.annotate, hhas, if_true]
    exact .inl ⟨hnode, rfl⟩
  · simp only [Node.annotate, hhas]
    refine .inr ⟨⟨rfl, fun child hchild => hnode.child hchild, ?_, ?_⟩, rfl⟩
    · exact ⟨hwell.type_eq, hwell.predicate, hwell.arity, hwell.categories,
        hwell.annotations.set session.next name value⟩
    · refine .inr (.inl ?_)
      simp [Annotations.set, hhas]

theorem Sound.makes_updateTable (hsound : session.Sound) {node table : Node}
    (hnode : session.Knows node) (htable : session.Knows table)
    (hjoin : node.kind.isPredicateJoin) (hcategory : table.category = .source) :
    session.Makes (node.updateTable table session.next) := by
  have hwell := hsound.wellFormed node hnode
  obtain ⟨form, old, predicate, hlabel, hchildren⟩ := hwell.exists_of_isPredicateJoin hjoin
  have hpredicate := hwell.predicate?_eq_some_iff.mpr ⟨form, old, hlabel, hchildren⟩
  rw [Node.updateTable_eq_update hwell hpredicate]
  refine hsound.makes_update hnode ?_ ?_
  · refine List.forall_mem_cons.mpr ⟨htable, List.forall_mem_singleton.mpr ?_⟩
    exact hnode.child (by simp [hchildren])
  · refine (hwell.checkCategories_iff (List.prefix_refl _) (by rw [hchildren]; rfl)).mpr ?_
    have hold : old.category = .source := by
      rw [hwell.categories 0 old (by simp [hchildren]), hlabel]
      rfl
    rw [hchildren]
    exact .cons (hcategory.trans hold.symm) (.cons rfl .nil)

theorem Sound.makes_updateChildren (hsound : session.Sound) {node : Node}
    {children : List Node} (hnode : session.Knows node)
    (hchildren : ∀ child ∈ children, session.Knows child) :
    session.Makes (node.updateChildren children session.next) := by
  rw [Node.updateChildren_eq_bind]
  cases hgiven : node.label.checkGiven children with
  | error fault => rfl
  | ok => exact hsound.makes_update hnode hchildren (Label.checkCategories_of_checkGiven hgiven)

theorem Sound.makes_withSignature (hsound : session.Sound) {node : Node}
    (hnode : session.Knows node) (signature : Signature) :
    session.Makes (node.withSignature signature session.next) := by
  unfold Node.withSignature
  cases hlabel : node.label with
  | call old type =>
      refine hsound.makes_compose (fun child hchild => hnode.child hchild) ?_
        (.inr ⟨node, hnode, rfl⟩)
      have hcategories := (hsound.wellFormed node hnode).categories
      rw [hlabel] at hcategories
      apply (Label.checkCategories_eq_ok_iff _ 0 _).mpr
      simpa [Label.slotCategory] using hcategories
  | _ => exact .inl ⟨hnode, rfl⟩

theorem Sound.makes_of_call (hsound : session.Sound) {action : Build Node}
    (hcall : session.Call action) : session.Makes (action session.next) := by
  cases hcall with
  | assemble label children hchildren =>
      cases hcategories : label.checkCategories 0 children with
      | error fault =>
          simp only [Node.assemble, hcategories]
          rfl
      | ok =>
          simp only [Node.assemble, hcategories]
          exact hsound.makes_compose hchildren hcategories (.inl rfl)
  | compose label children old hchildren hcategories hold =>
      exact hsound.makes_compose hchildren hcategories (.inr ⟨old, hold, rfl⟩)
  | annotate node name value hnode => exact hsound.makes_annotate hnode name value
  | update node children hnode hchildren hcategories =>
      exact hsound.makes_update hnode hchildren hcategories
  | updateChildren node children hnode hchildren =>
      exact hsound.makes_updateChildren hnode hchildren
  | updateTable node table hnode htable hjoin hcategory =>
      exact hsound.makes_updateTable hnode htable hjoin hcategory
  | withSignature node signature hnode =>
      exact hsound.makes_withSignature hnode signature

end Session

end QueryPlan
