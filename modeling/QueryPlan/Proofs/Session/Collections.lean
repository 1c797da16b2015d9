import QueryPlan.Proofs.Annotations.Hints
import QueryPlan.Proofs.Node.Walking
import QueryPlan.Proofs.Session.Reached
import QueryPlan.Proofs.Signature

/-!
# What walks collect

The walks that collect tables, parameters and functions differ in the methods that
they use, but each sees a plan in preorder.  So what they find is told by the nodes
that a traversal meets, in the order in which it meets them.
-/

namespace QueryPlan

/-! ## Parameters -/

namespace ParameterTypes

/-- Strictly sorted by name. -/
def Sorted (types : ParameterTypes) : Prop :=
  types.Pairwise fun entry later => entry.1 < later.1

theorem eq_or_mem_of_mem_declare {name : String} {type : DataType}
    {types : ParameterTypes} {entry : String × DataType}
    (hentry : entry ∈ types.declare name type) : entry = (name, type) ∨ entry ∈ types := by
  induction types with
  | nil => simpa [declare] using hentry
  | cons first rest ih =>
      simp only [declare] at hentry
      split at hentry
      · simpa using hentry
      · split at hentry
        · exact .inr hentry
        · rcases List.mem_cons.mp hentry with rfl | hentry
          · exact .inr List.mem_cons_self
          · exact (ih hentry).imp id (List.mem_cons_of_mem first)

theorem Sorted.declare {types : ParameterTypes} (hsorted : types.Sorted)
    (name : String) (type : DataType) : (types.declare name type).Sorted := by
  induction types with
  | nil => exact List.pairwise_singleton _ _
  | cons first rest ih =>
      obtain ⟨hfirst, hrest⟩ := List.pairwise_cons.mp hsorted
      simp only [ParameterTypes.declare]
      split
      · rename_i hbefore
        refine List.pairwise_cons.mpr ⟨?_, hsorted⟩
        intro later hlater
        rcases List.mem_cons.mp hlater with rfl | hlater
        · exact hbefore
        · exact lt_trans hbefore (hfirst later hlater)
      · split
        · exact hsorted
        · rename_i hbefore hname
          refine List.pairwise_cons.mpr ⟨?_, ih hrest⟩
          intro later hlater
          rcases eq_or_mem_of_mem_declare hlater with rfl | hlater
          · exact lt_of_le_of_ne (not_lt.mp hbefore) (Ne.symm hname)
          · exact hfirst later hlater

/-- A declaration counts only where the name was not declared before. -/
theorem Sorted.lookup_declare {types : ParameterTypes} (hsorted : types.Sorted)
    (name : String) (type : DataType) (other : String) :
    (types.declare name type).lookup other =
      (types.lookup other).or (List.lookup other [(name, type)]) := by
  induction types with
  | nil => rfl
  | cons entry rest ih =>
      obtain ⟨first, firstType⟩ := entry
      obtain ⟨hfirst, hrest⟩ := List.pairwise_cons.mp hsorted
      simp only [ParameterTypes.declare]
      split
      · rename_i hbefore
        cases hother : other == name with
        | true =>
            have hnone : List.lookup other ((first, firstType) :: rest) = none := by
              rw [beq_iff_eq.mp hother]
              apply List.lookup_eq_none_iff.mpr
              intro later hlater
              rcases List.mem_cons.mp hlater with rfl | hlater
              · simpa using hbefore.ne
              · simpa using (lt_trans hbefore (hfirst later hlater)).ne
            simp [hnone, List.lookup_cons, hother]
        | false => simp [List.lookup_cons, hother]
      · split
        · rename_i hname
          cases hother : other == first <;> simp [List.lookup_cons, hother, hname]
        · cases hother : other == first with
          | true => simp [List.lookup_cons, hother]
          | false => simpa [List.lookup_cons, hother] using ih hrest

/-- Declarations one after another. -/
def declareAll (types : ParameterTypes) (declarations : List (String × DataType)) :
    ParameterTypes :=
  declarations.foldl (fun types (name, type) => types.declare name type) types

theorem Sorted.declareAll {types : ParameterTypes} (hsorted : types.Sorted)
    (declarations : List (String × DataType)) : (types.declareAll declarations).Sorted := by
  induction declarations generalizing types with
  | nil => exact hsorted
  | cons first rest ih => exact ih (hsorted.declare first.1 first.2)

/-- Of several declarations of a name the first counts. -/
theorem Sorted.lookup_declareAll {types : ParameterTypes} (hsorted : types.Sorted)
    (declarations : List (String × DataType)) (name : String) :
    (types.declareAll declarations).lookup name =
      (types.lookup name).or (declarations.lookup name) := by
  induction declarations generalizing types with
  | nil => simp [ParameterTypes.declareAll]
  | cons first rest ih =>
      rw [← List.singleton_append, List.lookup_append, ← Option.or_assoc,
        ← hsorted.lookup_declare]
      exact ih (hsorted.declare first.1 first.2)

/-- Declared in front of all others, a parameter is the first. -/
theorem declare_eq_cons {name : String} {type : DataType} {types : ParameterTypes}
    (hfirst : ∀ entry ∈ types, name < entry.1) :
    types.declare name type = (name, type) :: types := by
  cases types with
  | nil => rfl
  | cons first rest => rw [declare, if_pos (hfirst first List.mem_cons_self)]

/-- Parameters of some names are left out before a declaration or after it. -/
theorem Sorted.filter_declare {types : ParameterTypes} (hsorted : types.Sorted)
    (leaves : String → Bool) (name : String) (type : DataType) :
    (types.declare name type).filter (fun entry => leaves entry.1) =
      if leaves name then
        ParameterTypes.declare name type (types.filter fun entry => leaves entry.1)
      else types.filter fun entry => leaves entry.1 := by
  induction types with
  | nil => cases hname : leaves name <;> simp [ParameterTypes.declare, hname]
  | cons first rest ih =>
      obtain ⟨hfirst, hrest⟩ := List.pairwise_cons.mp hsorted
      by_cases hbefore : name < first.1
      · have hall : ∀ entry ∈ (first :: rest).filter (fun entry => leaves entry.1),
            name < entry.1 := by
          intro entry hentry
          rcases List.mem_cons.mp (List.mem_of_mem_filter hentry) with rfl | hentry
          · exact hbefore
          · exact lt_trans hbefore (hfirst entry hentry)
        rw [ParameterTypes.declare, if_pos hbefore, declare_eq_cons hall, List.filter_cons]
      · by_cases hname : name = first.1
        · rw [ParameterTypes.declare, if_neg hbefore, if_pos hname]
          cases hleaves : leaves name with
          | false => rfl
          | true =>
              rw [List.filter_cons_of_pos (by rwa [← hname]), if_pos rfl,
                ParameterTypes.declare, if_neg hbefore, if_pos hname]
        · rw [ParameterTypes.declare, if_neg hbefore, if_neg hname, List.filter_cons,
            List.filter_cons, ih hrest]
          cases hleaves : leaves first.1 with
          | false => rfl
          | true =>
              cases leaves name with
              | false => rfl
              | true =>
                  simp only [if_true, ParameterTypes.declare, if_neg hbefore, if_neg hname]

theorem Sorted.filter_declareAll {types : ParameterTypes} (hsorted : types.Sorted)
    (leaves : String → Bool) (declarations : List (String × DataType)) :
    (types.declareAll declarations).filter (fun entry => leaves entry.1) =
      ParameterTypes.declareAll (types.filter fun entry => leaves entry.1)
        (declarations.filter fun entry => leaves entry.1) := by
  induction declarations generalizing types with
  | nil => rfl
  | cons first rest ih =>
      have hrest := ih (hsorted.declare first.1 first.2)
      rw [hsorted.filter_declare] at hrest
      rw [List.filter_cons]
      cases hleaves : leaves first.1 with
      | false =>
          rw [hleaves] at hrest
          exact hrest
      | true =>
          rw [hleaves] at hrest
          exact hrest

theorem foldl_declareAll {α : Type} (mention : α → Option (String × DataType))
    (members : List α) (types : ParameterTypes) :
    members.foldl (fun types x => types.declareAll (mention x).toList) types =
      types.declareAll (members.filterMap mention) := by
  induction members generalizing types with
  | nil => rfl
  | cons first rest ih =>
      rw [List.foldl_cons, ih]
      cases hmention : mention first <;> simp [declareAll, hmention]

end ParameterTypes

/-! ## The walks -/

/-- Notes put in front of each other are found in reverse. -/
theorem foldl_eq_of_toList {α β : Type} {see : α → List β → List β} {note : α → Option β}
    (hsee : ∀ x found, see x found = (note x).toList ++ found) (members : List α)
    (found : List β) :
    members.foldl (fun found x => see x found) found =
      (members.filterMap note).reverse ++ found := by
  induction members generalizing found with
  | nil => rfl
  | cons first rest ih =>
      rw [List.foldl_cons, ih, hsee]
      cases hnote : note first <;> simp [hnote]

section

variable [ForeignTypes]

open Session

/-- The parameter that a node mentions, with the type it declares. -/
def Node.declaration? (node : Node) : Option (String × DataType) :=
  match node.label with
  | .parameter name type => some (name, type)
  | _ => none

/-- The function that a node calls. -/
def Node.signature? (node : Node) : Option Signature :=
  match node.label with
  | .call signature _ => some signature
  | _ => none

namespace Walker

theorem sees_tables : tables.Sees fun node found =>
    (Option.guard (fun node => decide (node.kind = .table)) node).toList ++ found := by
  apply sees_of_rows
  intro handle type annotations parts label children hrow
  cases hrow <;> rfl

theorem sees_parameters : parameters.Sees fun node found =>
    found.declareAll node.declaration?.toList := by
  apply sees_of_rows
  intro handle type annotations parts label children hrow
  cases hrow <;> rfl

theorem sees_signatures : signatures.Sees fun node found =>
    node.signature?.toList ++ found := by
  apply sees_of_rows
  intro handle type annotations parts label children hrow
  cases hrow <;> rfl

end Walker

namespace Node

variable {node : Node}

theorem Whole.tables_eq (hnode : node.Whole) :
    node.tables = node.preorder.filter (·.kind = .table) := by
  rw [tables, Walker.sees_tables.walk_eq hnode, foldl_eq_of_toList fun _ _ => rfl,
    List.append_nil, List.reverse_reverse, List.filterMap_eq_filter]

theorem Whole.parameters_eq (hnode : node.Whole) :
    node.parameters =
      ParameterTypes.declareAll [] (node.preorder.filterMap declaration?) := by
  rw [parameters, Walker.sees_parameters.walk_eq hnode,
    ParameterTypes.foldl_declareAll]

theorem Whole.functions_eq (hnode : node.Whole) :
    node.functions =
      Signature.distinct (Signature.sort (node.preorder.filterMap signature?)) := by
  rw [functions, Walker.sees_signatures.walk_eq hnode, foldl_eq_of_toList fun _ _ => rfl,
    List.append_nil, List.reverse_reverse]

theorem mem_filterMap_signature?_iff {signature : Signature} {nodes : List Node} :
    signature ∈ nodes.filterMap signature? ↔
      ∃ part ∈ nodes, ∃ type, part.label = .call signature type := by
  rw [List.mem_filterMap]
  refine exists_congr fun part => and_congr_right fun _ => ?_
  unfold signature?
  cases part.label <;> simp

end Node

/-- The typed walk of a known plan meets the nodes that a traversal which always
goes on meets, in the same order, whether they are noted on arrival or in the
methods for their shapes.  The collected tables are those met, in this order; a
collected parameter has the type of its first mention; the collected functions are
those called, in increasing order. -/
theorem walk_meets_applied {session : Session} (hreached : session.Reached) {node : Node}
    (hnode : session.Knows node) :
    (∀ (σ : Type) (see : Node → σ → σ) (state : σ),
      node.apply (proceeding see) state =
          .ok .proceed (node.walk (.arriving see) state) ∧
        node.walk (.entering see) state = node.walk (.arriving see) state) ∧
      ∃ met : List Node,
        node.apply (proceeding fun part met => met ++ [part]) [] = .ok .proceed met ∧
          node.tables = met.filter (·.kind = .table) ∧
          node.parameters.Sorted ∧
          (∀ name, node.parameters.lookup name =
            (met.filterMap Node.declaration?).lookup name) ∧
          node.functions.Pairwise (fun a b => Signature.order a b = .lt) ∧
          ∀ signature, signature ∈ node.functions ↔
            ∃ part ∈ met, ∃ type, part.label = .call signature type := by
  have hwhole := hreached.sound.whole hnode
  constructor
  · intro σ see state
    rw [Node.apply_proceeding, (Walker.sees_arriving see).walk_eq hwhole,
      (Walker.sees_entering see).walk_eq hwhole]
    exact ⟨rfl, rfl⟩
  · refine ⟨node.preorder, ?_, hwhole.tables_eq, ?_, ?_, ?_, ?_⟩
    · rw [Node.apply_proceeding, List.foldl_append_eq_append, List.nil_append,
        ← List.flatMap_def, List.flatMap_singleton']
    · rw [hwhole.parameters_eq]
      exact ParameterTypes.Sorted.declareAll List.Pairwise.nil _
    · intro name
      rw [hwhole.parameters_eq,
        ParameterTypes.Sorted.lookup_declareAll List.Pairwise.nil, List.lookup_nil,
        Option.none_or]
    · rw [hwhole.functions_eq]
      exact Signature.pairwise_distinct (Signature.pairwise_sort _)
    · intro signature
      rw [hwhole.functions_eq, Signature.mem_distinct, Signature.sort,
        List.mem_mergeSort, Node.mem_filterMap_signature?_iff]

end

open Session
open scoped Hints

/-- A join whose predicate mentions a parameter twice, with two types, and calls a
function. -/
theorem walk_meets_applied_join :
    ∃ (session : Session) (join table : Node) (abs : Signature) (met : List Node),
      session.Reached ∧ session.Knows join ∧ table ∈ join.preorder ∧
        join.apply (proceeding fun part met => met ++ [part]) [] = .ok .proceed met ∧
        join.walk (.entering fun part met => met ++ [part]) [] = met ∧
        met.length = 7 ∧ join.tables = [table] ∧
        join.parameters.lookup "id" = some .integer ∧ abs ∈ join.functions := by
  let abs : Signature := ⟨some "Math", "Abs", ["float"]⟩
  let table := (Label.table "t" none none).node 0 .empty []
  let outer := (Label.join .outerApply).node 1 .empty [table]
  let p := (Label.parameter "id" .integer).node 2 .empty []
  let q := (Label.parameter "id" .float).node 3 .empty []
  let call := (Label.call abs .float).node 4 .empty [q]
  let predicate := (Label.binary .equal).node 5 .empty [p, call]
  let join := (Label.joinOn .left).node 6 .empty [outer, predicate]
  have htable : Reached ⟨1, [table]⟩ := (Reached.start 0).assemble (by simp) rfl
  have houter : Reached ⟨2, [outer, table]⟩ := htable.assemble (by simp) rfl
  have hp : Reached ⟨3, [p, outer, table]⟩ := houter.assemble (by simp) rfl
  have hq : Reached ⟨4, [q, p, outer, table]⟩ := hp.assemble (by simp) rfl
  have hcall : Reached ⟨5, [call, q, p, outer, table]⟩ := hq.assemble (by simp) rfl
  have hpredicate : Reached ⟨6, [predicate, call, q, p, outer, table]⟩ :=
    hcall.assemble (by simp) rfl
  let session : Session := ⟨7, [join, predicate, call, q, p, outer, table]⟩
  have hreached : session.Reached := hpredicate.assemble (by simp) rfl
  have hknows : session.Knows join := knows_of_mem_held List.mem_cons_self
  obtain ⟨hwalks, met, hmet, htables, -, hparameters, -, hfunctions⟩ :=
    walk_meets_applied hreached hknows
  have hseven : join.apply (proceeding fun part met => met ++ [part]) [] =
      .ok .proceed [join, outer, table, predicate, p, call, q] := rfl
  obtain ⟨hwalk, hentering⟩ := hwalks (List Node) (fun part met => met ++ [part]) []
  obtain rfl : [join, outer, table, predicate, p, call, q] = met := by
    simpa [hseven] using hmet
  refine ⟨session, join, table, abs, _, hreached, hknows, ?_, hseven, ?_, rfl, ?_, ?_, ?_⟩
  · exact Node.mem_preorder_of_mem_children List.mem_cons_self
      (Node.mem_preorder_of_mem_children List.mem_cons_self table.mem_preorder_self)
  · rw [hentering]
    simpa [hseven] using hwalk.symm
  · rw [htables]
    rfl
  · rw [hparameters]
    rfl
  · exact (hfunctions abs).mpr ⟨call, by simp, .float, rfl⟩

end QueryPlan
