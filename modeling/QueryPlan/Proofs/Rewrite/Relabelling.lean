import QueryPlan.Proofs.Rewrite.TypePreservation

/-!
# Relabelling

Some rules change nothing of a node but its label, and put only labels there that
fit over the same children and below the same parents.  Rewriting by such rules
passes every check, so it is relabelling of the plan and no more: the labels of the
rules one after another, put to every node.  The order in which the nodes come, from
the leaves up or from the root down, then tells only in which order faults are met.
-/

namespace QueryPlan

theorem bind_eq_ok_iff {ε α β : Type} {a : Except ε α} {rest : α → Except ε β}
    {result : β} : a >>= rest = .ok result ↔ ∃ x, a = .ok x ∧ rest x = .ok result := by
  cases a <;> simp [bind, Except.bind]

/-- What is made of a label, or a fault. -/
abbrev Relabelling := Label → Except NodeError Label

namespace Relabelling

/-- No label is a fault. -/
def Total (relabel : Relabelling) : Prop :=
  ∀ label, ∃ new, relabel label = .ok new

def compose : List Relabelling → Relabelling
  | [], label => .ok label
  | relabel :: rest, label => relabel label >>= compose rest

theorem compose_singleton (relabel : Relabelling) : compose [relabel] = relabel := by
  funext label
  exact bind_pure (relabel label)

theorem compose_pair (first second : Relabelling) (label : Label) :
    compose [first, second] label = first label >>= second := by
  rw [compose, compose_singleton]

theorem compose_append (relabels others : List Relabelling) :
    compose (relabels ++ others) = fun label => compose relabels label >>= compose others := by
  induction relabels with
  | nil => rfl
  | cons relabel rest ih =>
      funext label
      rw [List.cons_append, compose, compose, ih, bind_assoc]

theorem compose_eq_of_kept {relabels : List Relabelling} {label : Label}
    (hkept : ∀ relabel ∈ relabels, relabel label = .ok label) :
    compose relabels label = .ok label := by
  induction relabels with
  | nil => rfl
  | cons relabel rest ih =>
      obtain ⟨hfirst, hrest⟩ := List.forall_mem_cons.mp hkept
      rw [compose, hfirst]
      exact ih hrest

end Relabelling

/-- Two computations may be exchanged if one of them has no fault. -/
theorem bind_exchange {ε α β γ : Type} {a : Except ε α} {b : Except ε β}
    (hok : (∃ x, a = .ok x) ∨ ∃ y, b = .ok y) (rest : α → β → Except ε γ) :
    (a >>= fun x => b >>= rest x) = b >>= fun y => a >>= (rest · y) := by
  rcases hok with ⟨x, rfl⟩ | ⟨y, rfl⟩
  · cases b <;> rfl
  · cases a <;> rfl

variable [ForeignTypes]

/-- A label that may stand wherever another one does. -/
structure Label.Fits (new old : Label) : Prop where
  category : new.category = old.category
  arity : new.arity = old.arity
  slots : ∀ place, new.slotCategory place = old.slotCategory place
  types : ∀ types, new.typeOf types = old.typeOf types
  predicate : ∀ children, old.checkPredicate children = .ok () →
    new.checkPredicate children = .ok ()

namespace Label

theorem fits_self (label : Label) : label.Fits label :=
  ⟨rfl, rfl, fun _ => rfl, fun _ => rfl, fun _ hchecked => hchecked⟩

theorem Fits.trans {last new old : Label} (hlast : last.Fits new) (hnew : new.Fits old) :
    last.Fits old where
  category := hlast.category.trans hnew.category
  arity := hlast.arity.trans hnew.arity
  slots place := (hlast.slots place).trans (hnew.slots place)
  types types := (hlast.types types).trans (hnew.types types)
  predicate children hchecked := hlast.predicate children (hnew.predicate children hchecked)

theorem Fits.checkCategories {new old : Label} (hfits : new.Fits old) {place : Nat}
    {children : List Node} (hchecked : old.checkCategories place children = .ok ()) :
    new.checkCategories place children = .ok () := by
  rw [checkCategories_eq_ok_iff] at hchecked ⊢
  intro i child hchild
  rw [hfits.slots]
  exact hchecked i child hchild

theorem Fits.checkParts {new old : Label} (hfits : new.Fits old) {children : List Node}
    (hchecked : old.checkParts children = .ok ()) : new.checkParts children = .ok () := by
  rw [checkParts_eq_ok_iff, checkCount_eq_ok_iff] at hchecked ⊢
  exact ⟨hchecked.1.trans hfits.arity.symm, hfits.predicate children hchecked.2⟩

end Label

namespace Relabelling

/-- Every label that is made fits where the old one stands. -/
def Fitting (relabel : Relabelling) : Prop :=
  ∀ label new, relabel label = .ok new → new.Fits label

/-- Relabelling as a step at one node. -/
def step (relabel : Relabelling) : Step := fun node =>
  (relabel node.label).map (·.node 0 node.annotations node.children)

mutual

/-- The plan under other labels.  The faults of children are met before that of the
node over them. -/
def apply (relabel : Relabelling) (node : Node) : Except NodeError Node :=
  match node with
  | ⟨_, label, _, annotations, children⟩ => do
      let children ← applyAll relabel children
      return (← relabel label).node 0 annotations children

def applyAll (relabel : Relabelling) : List Node → Except NodeError (List Node)
  | [] => .ok []
  | child :: rest => do
      let changed ← apply relabel child
      return changed :: (← applyAll relabel rest)

end

variable {relabel : Relabelling} {faults : NodeError → Prop}

theorem apply_eq (relabel : Relabelling) (node : Node) :
    relabel.apply node = (do
      let children ← relabel.applyAll node.children
      return (← relabel node.label).node 0 node.annotations children) := by
  cases node
  rw [apply]

theorem applyAll_cons_eq_ok_iff {node : Node} {rest results : List Node} :
    relabel.applyAll (node :: rest) = .ok results ↔
      ∃ new, relabel.apply node = .ok new ∧
        ∃ news, relabel.applyAll rest = .ok news ∧ new :: news = results := by
  simp [applyAll, bind_eq_ok_iff, pure, Except.pure]

theorem apply_eq_ok_iff {node result : Node} :
    relabel.apply node = .ok result ↔
      ∃ children, relabel.applyAll node.children = .ok children ∧
        ∃ label, relabel node.label = .ok label ∧
          label.node 0 node.annotations children = result := by
  simp [apply_eq, bind_eq_ok_iff, pure, Except.pure]

theorem Fitting.compose {relabels : List Relabelling}
    (hrelabels : ∀ relabel ∈ relabels, relabel.Fitting) : (compose relabels).Fitting := by
  induction relabels with
  | nil =>
      intro label new hnew
      obtain rfl := Except.ok.inj hnew
      exact label.fits_self
  | cons relabel rest ih =>
      obtain ⟨hfirst, hrest⟩ := List.forall_mem_cons.mp hrelabels
      intro label new hnew
      obtain ⟨middle, hmiddle, hnew⟩ := bind_eq_ok_iff.mp hnew
      exact (ih hrest middle new hnew).trans (hfirst label middle hmiddle)

theorem applySteps_eq (relabels : List Relabelling) (label : Label)
    (annotations : Annotations) (children : List Node) :
    NormalRewriting.applySteps (relabels.map step) (label.node 0 annotations children) =
      (compose relabels label).map (·.node 0 annotations children) := by
  induction relabels generalizing label with
  | nil => rfl
  | cons relabel rest ih =>
      simp only [List.map_cons, NormalRewriting.applySteps, compose, step,
        Label.node_label, Label.node_annotations, Label.node_children]
      cases relabel label with
      | error fault => rfl
      | ok new => exact ih new

theorem exists_of_mem_applyAll {nodes news : List Node}
    (hnews : relabel.applyAll nodes = .ok news) {new : Node} (hnew : new ∈ news) :
    ∃ node ∈ nodes, relabel.apply node = .ok new := by
  induction nodes generalizing news with
  | nil =>
      cases hnews
      cases hnew
  | cons node rest ih =>
      obtain ⟨first, hfirst, others, hothers, rfl⟩ := applyAll_cons_eq_ok_iff.mp hnews
      rcases List.mem_cons.mp hnew with rfl | hnew
      · exact ⟨node, List.mem_cons_self, hfirst⟩
      · obtain ⟨old, hold, hnew⟩ := ih hothers hnew
        exact ⟨old, List.mem_cons_of_mem node hold, hnew⟩

/-- The labels of a relabelled plan are what was made of old ones. -/
theorem exists_label_of_mem_preorder {node new : Node} (hnew : relabel.apply node = .ok new)
    {part : Node} (hpart : part ∈ new.preorder) :
    ∃ old, relabel old = .ok part.label := by
  induction node using Node.inductionOn generalizing new with
  | step node ih =>
      obtain ⟨news, hnews, label, hlabel, rfl⟩ := apply_eq_ok_iff.mp hnew
      rcases Node.mem_preorder_iff.mp hpart with rfl | ⟨child, hchild, hpart⟩
      · exact ⟨node.label, hlabel⟩
      · obtain ⟨old, hold, happly⟩ := exists_of_mem_applyAll hnews hchild
        exact ih old hold happly hpart

/-! ## Relabelling as a visit -/

theorem applyAll_eq_visitAll (label : Label) (place : Nat) {change : Step}
    {children : List Node} (hchange : ∀ child ∈ children, change child = relabel.apply child)
    (hkeeps : ∀ child ∈ children, KeepsType faults child (relabel.apply child))
    (hcategories : label.checkCategories place children = .ok ()) :
    NormalRewriting.visitAll change label place children = relabel.applyAll children := by
  induction children generalizing place with
  | nil => rfl
  | cons child rest ih =>
      obtain ⟨hcategory, hrest⟩ :=
        (label.checkCategories_cons_eq_ok_iff place child rest).mp hcategories
      obtain ⟨hchild, hchange⟩ := List.forall_mem_cons.mp hchange
      obtain ⟨hkept, hkeeps⟩ := List.forall_mem_cons.mp hkeeps
      rw [NormalRewriting.visitAll, applyAll, hchild, ih (place + 1) hchange hkeeps hrest]
      cases hnew : relabel.apply child with
      | error fault => rfl
      | ok new =>
          rw [hnew] at hkept
          have hexpect : new.expect label.kind (label.slotCategory place) = .ok new :=
            Node.expect_eq_ok_iff.mpr ⟨hkept.2.1.trans hcategory, rfl⟩
          simp only [bind, Except.bind, hexpect]

theorem rebuild_eq_ok {label : Label} {annotations : Annotations} {children : List Node}
    (hparts : label.checkParts children = .ok ()) :
    NormalRewriting.rebuild label annotations children =
      .ok (label.node 0 annotations children) := by
  rw [NormalRewriting.rebuild, hparts]
  rfl

/-- A relabelling that fits makes whole plans of the same category and type. -/
theorem Fitting.keeps (hrelabel : relabel.Fitting)
    (hfaults : ∀ label fault, relabel label = .error fault → faults fault) :
    Step.Keeps faults relabel.apply := by
  intro node hnode
  induction node using Node.inductionOn with
  | step node ih =>
      obtain ⟨hwell, hparts⟩ := Node.whole_iff.mp hnode
      have hkeeps := fun child hchild => ih child hchild (hparts child hchild)
      have hvisited := keepsTypes_visitAll node.label 0 hkeeps hwell.checkCategories
      rw [applyAll_eq_visitAll node.label 0 (fun _ _ => rfl) hkeeps
        hwell.checkCategories] at hvisited
      rw [apply_eq]
      cases hnews : relabel.applyAll node.children with
      | error fault =>
          rw [hnews] at hvisited
          exact hvisited
      | ok news =>
          rw [hnews] at hvisited
          obtain ⟨hwholes, hcategories, htypes⟩ := hvisited
          simp only [bind, Except.bind]
          cases hnew : relabel node.label with
          | error fault => exact hfaults node.label fault hnew
          | ok new =>
              have hfits := hrelabel node.label new hnew
              have hchecked : new.checkParts news = .ok () := by
                rw [new.checkParts_eq_of_types_eq htypes]
                exact hfits.checkParts hwell.checkParts
              have hrebuilt : KeepsType faults node
                  (NormalRewriting.rebuild new node.annotations news) :=
                keepsType_rebuild hwholes (hfits.checkCategories hcategories) hchecked
                  hwell.annotations hfits.category
                  (by rw [htypes, hfits.types, ← hwell.type_eq])
              rwa [rebuild_eq_ok hchecked] at hrebuilt

/-- Visiting the children of a node by relabelling them, under any label that fits. -/
theorem Fitting.visitChildren_eq (hrelabel : relabel.Fitting) {node : Node}
    (hnode : node.Whole) {new : Label} (hnew : new.Fits node.label) {change : Step}
    (hchange : ∀ child ∈ node.children, change child = relabel.apply child) :
    NormalRewriting.visitChildren change (new.node 0 node.annotations node.children) =
      (relabel.applyAll node.children).map (new.node 0 node.annotations ·) := by
  obtain ⟨hwell, hparts⟩ := Node.whole_iff.mp hnode
  have hkeeps : ∀ child ∈ node.children,
      KeepsType (fun _ => True) child (relabel.apply child) :=
    fun child hchild => hrelabel.keeps (fun _ _ _ => trivial) child (hparts child hchild)
  have hcategories := hnew.checkCategories hwell.checkCategories
  have hvisited := keepsTypes_visitAll new 0 hkeeps hcategories
  rw [applyAll_eq_visitAll new 0 (fun _ _ => rfl) hkeeps hcategories] at hvisited
  unfold NormalRewriting.visitChildren
  rw [Label.node_label, Label.node_annotations, Label.node_children,
    applyAll_eq_visitAll new 0 hchange hkeeps hcategories]
  cases hnews : relabel.applyAll node.children with
  | error fault => rfl
  | ok news =>
      rw [hnews] at hvisited
      obtain ⟨-, -, htypes⟩ := hvisited
      apply rebuild_eq_ok
      rw [new.checkParts_eq_of_types_eq htypes]
      exact hnew.checkParts hwell.checkParts

/-! ## Rewriting is relabelling -/

theorem step_compose_pair (first second : Relabelling) (node : Node) :
    (compose [first, second]).step node = first.step node >>= second.step := by
  simp only [step, compose_pair]
  cases first node.label <;> rfl

theorem rewriteNode_eq_apply {relabels : List Relabelling}
    (hrelabels : ∀ relabel ∈ relabels, relabel.Fitting) {node : Node} (hnode : node.Whole) :
    NormalRewriting.rewriteNode (relabels.map step) node =
      (compose relabels).apply node := by
  induction node using Node.inductionOn with
  | step node ih =>
      have hchildren := (Node.whole_iff.mp hnode).2
      have hvisited := (Fitting.compose hrelabels).visitChildren_eq hnode
        node.label.fits_self fun child hchild => ih child hchild (hchildren child hchild)
      have hnodes : NormalRewriting.visitChildren
          (NormalRewriting.rewriteNode (relabels.map step)) node =
            ((compose relabels).applyAll node.children).map
              (node.label.node 0 node.annotations ·) := hvisited
      rw [NormalRewriting.rewriteNode_eq_visitChildren, hnodes, apply_eq]
      cases (compose relabels).applyAll node.children with
      | error fault => rfl
      | ok news => exact applySteps_eq relabels node.label node.annotations news

/-- From the root down the label of a node comes before those of its children.  That
makes no difference if a fault can come from a node without children only. -/
theorem Fitting.transformDown_eq_apply (hrelabel : relabel.Fitting)
    (hleaves : ∀ label fault, relabel label = .error fault → label.arity = 0)
    {node : Node} (hnode : node.Whole) {depth : Nat} (hdepth : node.preorder.length ≤ depth) :
    NormalRewriting.transformDown relabel.step depth node.normal =
      relabel.apply node.normal := by
  induction node using Node.inductionOn generalizing depth with
  | step node ih =>
      obtain ⟨hwell, hparts⟩ := Node.whole_iff.mp hnode
      have hpositive : 0 < node.preorder.length := List.length_pos_of_mem node.mem_preorder_self
      obtain ⟨depth, rfl⟩ : ∃ less, depth = less + 1 := ⟨depth - 1, by omega⟩
      have hchildren : ∀ child ∈ node.normal.children,
          NormalRewriting.transformDown relabel.step depth child = relabel.apply child := by
        intro child hchild
        rw [Node.normal_children] at hchild
        obtain ⟨old, hold, rfl⟩ := List.mem_map.mp hchild
        apply ih old hold (hparts old hold)
        have hlength := Node.length_preorder_lt_of_mem_children hold
        omega
      rw [NormalRewriting.transformDown, step, apply_eq]
      cases hnew : relabel node.normal.label with
      | error fault =>
          have hnone : node.normal.children = [] := by
            apply List.length_eq_zero_iff.mp
            rw [hwell.normal.arity]
            exact hleaves _ fault hnew
          rw [hnone]
          rfl
      | ok new =>
          have hvisited := hrelabel.visitChildren_eq hnode.normal (hrelabel _ new hnew)
            hchildren
          simp only [Except.map, bind, Except.bind]
          rw [hvisited]
          cases relabel.applyAll node.normal.children <;> rfl

end Relabelling

/-! ## One relabelling after another -/

namespace Relabelling

variable {first second relabel : Relabelling}

theorem exists_applyAll {nodes : List Node}
    (hnodes : ∀ node ∈ nodes, ∃ new, relabel.apply node = .ok new) :
    ∃ news, relabel.applyAll nodes = .ok news := by
  induction nodes with
  | nil => exact ⟨[], rfl⟩
  | cons node rest ih =>
      obtain ⟨⟨new, hnew⟩, hrest⟩ := List.forall_mem_cons.mp hnodes
      obtain ⟨news, hnews⟩ := ih hrest
      refine ⟨new :: news, ?_⟩
      rw [applyAll, hnew, hnews]
      rfl

theorem Total.apply (htotal : relabel.Total) (node : Node) :
    ∃ new, relabel.apply node = .ok new := by
  induction node using Node.inductionOn with
  | step node ih =>
      obtain ⟨news, hnews⟩ := exists_applyAll ih
      obtain ⟨new, hnew⟩ := htotal node.label
      refine ⟨new.node 0 node.annotations news, ?_⟩
      rw [apply_eq, hnews, hnew]
      rfl

theorem applyAll_bind (htotal : first.Total ∨ second.Total) {nodes : List Node}
    (hnodes : ∀ node ∈ nodes, first.apply node >>= second.apply =
      apply (fun label => first label >>= second) node) :
    first.applyAll nodes >>= second.applyAll =
      applyAll (fun label => first label >>= second) nodes := by
  induction nodes with
  | nil => rfl
  | cons node rest ih =>
      obtain ⟨hnode, hrest⟩ := List.forall_mem_cons.mp hnodes
      rw [applyAll, applyAll, ← hnode, ← ih hrest]
      simp only [bind_assoc, pure_bind]
      refine bind_congr fun changed => ?_
      have hexchange := bind_exchange (a := first.applyAll rest)
        (b := second.apply changed)
        (htotal.imp (fun hfirst => exists_applyAll fun node _ => hfirst.apply node)
          fun hsecond => hsecond.apply changed)
        fun news new => do return new :: (← second.applyAll news)
      exact hexchange

/-- Relabelling twice is relabelling once if one of the two has no faults, so that the
faults of the other are met in the same order. -/
theorem apply_bind (htotal : first.Total ∨ second.Total) (node : Node) :
    first.apply node >>= second.apply =
      apply (fun label => first label >>= second) node := by
  induction node using Node.inductionOn with
  | step node ih =>
      rw [apply_eq, apply_eq, ← applyAll_bind htotal ih]
      simp only [bind_assoc, pure_bind]
      refine bind_congr fun children => ?_
      have hsecond : ∀ new : Label,
          second.apply (new.node 0 node.annotations children) = (do
            let news ← second.applyAll children
            return (← second new).node 0 node.annotations news) :=
        fun new => second.apply_eq (new.node 0 node.annotations children)
      simp only [hsecond]
      exact bind_exchange
        (htotal.imp (fun hfirst => hfirst node.label)
          fun hsecond => exists_applyAll fun child _ => hsecond.apply child)
        fun new news => do return (← second new).node 0 node.annotations news

theorem applyAll_bind_eq_ok_iff {nodes : List Node}
    (hnodes : ∀ node ∈ nodes, ∀ result,
      first.apply node >>= second.apply = .ok result ↔
        apply (fun label => first label >>= second) node = .ok result)
    {results : List Node} :
    first.applyAll nodes >>= second.applyAll = .ok results ↔
      applyAll (fun label => first label >>= second) nodes = .ok results := by
  induction nodes generalizing results with
  | nil => rfl
  | cons node rest ih =>
      obtain ⟨hnode, hrest⟩ := List.forall_mem_cons.mp hnodes
      simp only [bind_eq_ok_iff, applyAll_cons_eq_ok_iff, ← hnode, ← ih hrest]
      constructor
      · rintro ⟨_, ⟨new, hnew, news, hnews, rfl⟩, hresults⟩
        obtain ⟨last, hlast, lasts, hlasts, rfl⟩ := applyAll_cons_eq_ok_iff.mp hresults
        exact ⟨last, ⟨new, hnew, hlast⟩, lasts, ⟨news, hnews, hlasts⟩, rfl⟩
      · rintro ⟨last, ⟨new, hnew, hlast⟩, lasts, ⟨news, hnews, hlasts⟩, rfl⟩
        exact ⟨new :: news, ⟨new, hnew, news, hnews, rfl⟩,
          applyAll_cons_eq_ok_iff.mpr ⟨last, hlast, lasts, hlasts, rfl⟩⟩

/-- Relabelling twice makes the plans that relabelling once makes, whichever of the two
has faults. -/
theorem apply_bind_eq_ok_iff {node result : Node} :
    first.apply node >>= second.apply = .ok result ↔
      apply (fun label => first label >>= second) node = .ok result := by
  induction node using Node.inductionOn generalizing result with
  | step node ih =>
      have hchildren : ∀ results, first.applyAll node.children >>= second.applyAll =
          .ok results ↔ applyAll (fun label => first label >>= second) node.children =
            .ok results :=
        fun _ => applyAll_bind_eq_ok_iff fun child hchild _ => ih child hchild
      rw [apply_eq_ok_iff, bind_eq_ok_iff]
      simp only [← hchildren, bind_eq_ok_iff]
      constructor
      · rintro ⟨middle, hmiddle, hresult⟩
        obtain ⟨news, hnews, new, hnew, rfl⟩ := apply_eq_ok_iff.mp hmiddle
        obtain ⟨lasts, hlasts, last, hlast, rfl⟩ := apply_eq_ok_iff.mp hresult
        exact ⟨lasts, ⟨news, hnews, hlasts⟩, last, ⟨new, hnew, hlast⟩, rfl⟩
      · rintro ⟨lasts, ⟨news, hnews, hlasts⟩, last, ⟨new, hnew, hlast⟩, rfl⟩
        exact ⟨new.node 0 node.annotations news,
          apply_eq_ok_iff.mpr ⟨news, hnews, new, hnew, rfl⟩,
          apply_eq_ok_iff.mpr ⟨lasts, hlasts, last, hlast, rfl⟩⟩

end Relabelling

end QueryPlan
