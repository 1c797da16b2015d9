import QueryPlan.Proofs.Session.Equality

/-!
# Plans over later handles

Had more handles been given out before, a plan would have been built under others.  Then the
handles from some bound on are moved up, and those below it stay.

Nodes that were one stay one and nodes that were two stay two, so whatever is decided by
comparing handles is decided as before.  A plan whose handles are all below the bound is not
moved at all, and can be told from the same nodes as before.
-/

namespace QueryPlan

/-- Handles from `first` on are given out `gap` handles later. -/
structure Shift where
  first : Handle
  gap : Nat

namespace Shift

variable (shift : Shift) {a b : Handle}

def handle (a : Handle) : Handle :=
  if a < shift.first then a else a + shift.gap

variable {shift}

theorem handle_of_lt (ha : a < shift.first) : shift.handle a = a :=
  if_pos ha

theorem handle_of_le (ha : shift.first ≤ a) : shift.handle a = a + shift.gap :=
  if_neg (Nat.not_lt.mpr ha)

theorem handle_inj : shift.handle a = shift.handle b ↔ a = b := by
  unfold handle
  split <;> split <;> grind

theorem handle_eq_iff_of_lt (hb : b < shift.first) : shift.handle a = b ↔ a = b := by
  have hinj : shift.handle a = shift.handle b ↔ a = b := handle_inj
  rwa [handle_of_lt hb] at hinj

end Shift

variable [ForeignTypes]

def Annotations.moved (shift : Shift) (annotations : Annotations) : Annotations :=
  { annotations with storage := annotations.storage.map shift.handle }

theorem Annotations.moved_eq {shift : Shift} {annotations : Annotations}
    (hannotations : ∀ storage, annotations.storage = some storage → storage < shift.first) :
    annotations.moved shift = annotations := by
  cases annotations with
  | mk storage entries =>
      cases storage with
      | none => rfl
      | some storage =>
          rw [moved, Option.map_some, Shift.handle_of_lt (hannotations storage rfl)]

namespace Node

mutual

def moved (shift : Shift) (node : Node) : Node :=
  match node with
  | ⟨handle, label, type, annotations, children⟩ =>
    ⟨shift.handle handle, label, type, annotations.moved shift, movedAll shift children⟩

def movedAll (shift : Shift) : List Node → List Node
  | [] => []
  | node :: rest => moved shift node :: movedAll shift rest

end

variable (shift : Shift) (node : Node)

theorem movedAll_eq_map (nodes : List Node) :
    movedAll shift nodes = nodes.map (moved shift) := by
  induction nodes with
  | nil => rfl
  | cons node rest ih => rw [movedAll, ih, List.map_cons]

@[simp] theorem moved_handle : (node.moved shift).handle = shift.handle node.handle := by
  cases node
  rfl

@[simp] theorem moved_label : (node.moved shift).label = node.label := by
  cases node
  rfl

@[simp] theorem moved_type : (node.moved shift).type = node.type := by
  cases node
  rfl

@[simp] theorem moved_annotations :
    (node.moved shift).annotations = node.annotations.moved shift := by
  cases node
  rfl

@[simp] theorem moved_children :
    (node.moved shift).children = node.children.map (moved shift) := by
  cases node
  simp [moved, movedAll_eq_map]

@[simp] theorem moved_kind : (node.moved shift).kind = node.kind := by
  simp [kind]

@[simp] theorem moved_category : (node.moved shift).category = node.category := by
  simp [category]

theorem moved_node (label : Label) (handle : Handle) (annotations : Annotations)
    (children : List Node) :
    (label.node handle annotations children).moved shift =
      label.node (shift.handle handle) (annotations.moved shift)
        (children.map (moved shift)) := by
  simp [moved, movedAll_eq_map, Label.node, Function.comp_def]

/-! ## What handles decide -/

variable {shift}

theorem is_moved (a b : Node) : (a.moved shift).is (b.moved shift) = a.is b := by
  simp [is, Shift.handle_inj]

theorem areAll_moved (nodes others : List Node) :
    areAll (nodes.map (moved shift)) (others.map (moved shift)) = areAll nodes others := by
  induction nodes generalizing others with
  | nil => cases others <;> rfl
  | cons node nodes ih =>
      cases others with
      | nil => rfl
      | cons other others => simp [areAll, is_moved, ih]

theorem expect_moved (parent : Kind) (category : Category) :
    (node.moved shift).expect parent category =
      (node.expect parent category).map (moved shift) := by
  unfold expect
  split <;> simp_all [Except.map]

/-! ## Plans below the bound -/

/-- All handles and storages of the plan are below the bound. -/
def Below (bound : Handle) (node : Node) : Prop :=
  ∀ part ∈ node.preorder, part.handle < bound ∧
    ∀ storage, part.annotations.storage = some storage → storage < bound

variable {node} {target : Node} {bound : Handle}

theorem below_iff : node.Below bound ↔
    (node.handle < bound ∧
      ∀ storage, node.annotations.storage = some storage → storage < bound) ∧
    ∀ child ∈ node.children, child.Below bound :=
  forall_mem_preorder_iff

theorem Below.mono {larger : Handle} (hnode : node.Below bound) (hlarger : bound ≤ larger) :
    node.Below larger := by
  intro part hpart
  obtain ⟨hhandle, hstorage⟩ := hnode part hpart
  refine ⟨lt_of_lt_of_le hhandle hlarger, ?_⟩
  exact fun storage heq => lt_of_lt_of_le (hstorage storage heq) hlarger

theorem Below.is_moved (htarget : target.Below shift.first) :
    (node.moved shift).is target = node.is target := by
  obtain ⟨⟨hhandle, -⟩, -⟩ := below_iff.mp htarget
  simp only [is, moved_handle, Shift.handle_eq_iff_of_lt hhandle]

theorem Below.annotations_same_moved (htarget : target.Below shift.first)
    (annotations : Annotations) :
    (annotations.moved shift).same target.annotations =
      annotations.same target.annotations := by
  obtain ⟨⟨-, hstorage⟩, -⟩ := below_iff.mp htarget
  have hshares : (annotations.moved shift).shares target.annotations =
      annotations.shares target.annotations := by
    unfold Annotations.shares Annotations.moved
    cases hfound : target.annotations.storage with
    | none => simp
    | some storage =>
        cases annotations.storage with
        | none => rfl
        | some other => simp [Shift.handle_eq_iff_of_lt (hstorage storage hfound)]
  rw [Annotations.same, Annotations.same, hshares]
  rfl

theorem sameAll_map {change : Node → Node} {nodes others : List Node}
    (hchange : ∀ node ∈ nodes, ∀ other ∈ others,
      (change node).same other = node.same other) :
    sameAll (nodes.map change) others = sameAll nodes others := by
  induction nodes generalizing others with
  | nil => rfl
  | cons node nodes ih =>
      cases others with
      | nil => rfl
      | cons other others =>
          have hrest := ih fun node hnode other hother =>
            hchange node (List.mem_cons_of_mem _ hnode) other (List.mem_cons_of_mem _ hother)
          simp only [List.map_cons, sameAll, hrest,
            hchange node List.mem_cons_self other List.mem_cons_self]

/-- A moved plan is the same as those plans below the bound that it was the same as. -/
theorem Below.same_moved (htarget : target.Below shift.first) :
    (node.moved shift).same target = node.same target := by
  induction node using Node.inductionOn generalizing target with
  | step node ih =>
      obtain ⟨⟨hhandle, -⟩, hbelow⟩ := below_iff.mp htarget
      have hchildren : sameAll (node.children.map (moved shift)) target.children =
          sameAll node.children target.children :=
        sameAll_map fun child hchild other hother => ih child hchild (hbelow other hother)
      rw [Bool.eq_iff_iff, same_iff, same_iff, moved_handle,
        Shift.handle_eq_iff_of_lt hhandle, moved_label, moved_children, hchildren,
        moved_annotations, htarget.annotations_same_moved]

/-- A plan below the bound is not moved. -/
theorem Below.moved_eq (hnode : node.Below shift.first) : node.moved shift = node := by
  induction node using Node.inductionOn with
  | step node ih =>
      obtain ⟨⟨hhandle, hstorage⟩, hbelow⟩ := below_iff.mp hnode
      have hchildren : node.children.map (moved shift) = node.children := by
        rw [List.map_congr_left fun child hchild => ih child hchild (hbelow child hchild),
          List.map_id']
      have hannotations := Annotations.moved_eq hstorage
      cases node with
      | mk handle label type annotations children =>
          simp only [moved, movedAll_eq_map] at *
          rw [Shift.handle_of_lt hhandle, hannotations, hchildren]

end Node

theorem Session.Sound.below {session : Session} (hsound : session.Sound) {node : Node}
    (hnode : session.Knows node) : node.Below session.next :=
  fun part hpart => ⟨hsound.bounded part (hnode.part hpart),
    fun storage => hsound.storageBounded part storage (hnode.part hpart)⟩

end QueryPlan
