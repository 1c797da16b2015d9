import QueryPlan.Proofs.Annotations.Hints
import QueryPlan.Proofs.Rewrite.Insertion
import QueryPlan.Proofs.Rewrite.SingleRule

/-!
# What forwarding and substitution make of a plan

A pass of a forwarding never fails; it puts the function at the end of its chain into
each call.  A pass of a substitution fails over the first parameter that is bound to a
value which its declared type does not take, and otherwise puts constants for the bound
parameters.  All else stays, so the functions called afterwards are the ends of chains,
the parameters are the unbound ones, and the tables are the very same nodes.
-/

namespace QueryPlan

section

variable [ForeignTypes]

open Session

/-! ## Forwarding -/

namespace ForwardingTable

def forwardedLabel (table : ForwardingTable) : Label → Label
  | .call signature type => .call (table.endOf signature) type
  | label => label

variable {table : ForwardingTable}

theorem puts_forwardedLabel (htable : table.Reached) :
    table.rule.Puts table.forwardedLabel := by
  intro node next last outcome _ hrun
  cases hlabel : node.label with
  | call signature type =>
      cases hresolve : table.resolve? signature with
      | none =>
          simp only [rule, apply, hlabel, hresolve] at hrun
          cases hrun
          apply Outcome.puts_unchanged
          rw [hlabel, forwardedLabel, endOf, hresolve, Option.getD_none]
      | some target =>
          simp only [rule, apply, hlabel, hresolve] at hrun
          obtain ⟨new, later, hnew, hrun⟩ := Attempt.bind_eq_ok_iff.mp hrun
          cases hrun
          have hend : table.endOf signature = target := by
            rw [endOf, hresolve, Option.getD_some]
          simp only [Node.withSignature, hlabel, Node.compose_eq] at hnew
          -- The new signature either passed its checks and was put, or the rule failed.
          split at hnew
          · cases hnew
            refine ⟨?_, rfl, rfl, ?_⟩
            · rw [hlabel, forwardedLabel, hend]
              rfl
            · intro hkept
              rw [hlabel, forwardedLabel, hend, Label.call.injEq] at hkept
              exact absurd hkept.1 (htable.ne_of_resolve? hresolve)
          · cases hnew
  | _ =>
      simp only [rule, apply, hlabel] at hrun
      cases hrun
      apply Outcome.puts_unchanged
      simp only [hlabel, forwardedLabel]

end ForwardingTable

/-- A pass of a forwarding over a known plan succeeds.  At every position of the result
stands what stood there before, only that each call is one of the function at the end of
its chain; the functions called are, in increasing order, the ends of the chains of those
called before. -/
theorem forwarding_replaces_signatures {session : Session} (hreached : session.Reached)
    {node : Node} (hnode : session.Knows node) {table : ForwardingTable}
    (htable : table.Reached) {rewriter : Rewriter} (hrules : rewriter.rules = [table.rule])
    (store : Store Journal) (hstore : session.next ≤ store.next) :
    ∃ outcome store', rewriter.rewrite node store = .ok outcome store' ∧
      (∀ path, Option.Rel (Node.MatchesBy table.forwardedLabel) (node.at? path)
        (outcome.node.at? path)) ∧
      outcome.node.functions.Pairwise (fun a b => Signature.order a b = .lt) ∧
      ∀ signature, signature ∈ outcome.node.functions ↔
        ∃ called ∈ node.functions, table.endOf called = signature := by
  have htotal := table.total_relabel
  obtain ⟨outcome, store', hrun, hwhole, hresult⟩ := Rewriter.exists_relabelledBy hreached
    hnode hrules (ForwardingTable.relabels session htable)
    (ForwardingTable.puts_forwardedLabel htable) (fun label types => by cases label <;> rfl)
    (fun label _ hfault => absurd hfault (htotal.ne_error label)) hstore
    (fun part _ => htotal.fault?_eq_none part.normal)
  refine ⟨outcome, store', hrun, hresult.matchesBy_at?, ?_⟩
  apply hresult.functions_eq (hreached.sound.whole hnode) hwhole
  intro part newPart hpart
  unfold Node.signature?
  rw [hpart.label]
  cases part.label <;> rfl

end

section

open Session
open scoped Hints

/-- A call below a call; both functions are forwarded to the same one, the outer over two
entries. -/
theorem forwarding_replaces_signatures_nested :
    ∃ (session : Session) (outer : Node) (table : ForwardingTable) (rewriter : Rewriter)
      (root half sqrt : Signature) (outcome : Outcome) (store' : Store Journal),
      session.Reached ∧ session.Knows outer ∧ table.Reached ∧
        outer.preorder.map Node.label =
          [.call root .float, .call half .float, .parameter "x" .float] ∧
        rewriter.rewrite outer ⟨session.next, []⟩ = .ok outcome store' ∧
        outcome.node.preorder.map Node.label =
          [.call sqrt .float, .call sqrt .float, .parameter "x" .float] ∧
        Option.Rel (Node.MatchesBy table.forwardedLabel) (outer.at? [0])
          (outcome.node.at? [0]) ∧
        ∀ signature, signature ∈ outcome.node.functions ↔ signature = sqrt := by
  let root : Signature := ⟨none, "root", ["float"]⟩
  let half : Signature := ⟨none, "half", ["float"]⟩
  let sqrt : Signature := ⟨some "MathF", "Sqrt", ["float"]⟩
  let table : ForwardingTable := ⟨[(root, half), (half, sqrt)]⟩
  have hroot : ForwardingTable.Reached ⟨[(root, half)]⟩ := .insert root half .empty rfl
  have htable : table.Reached := .insert half sqrt hroot rfl
  let x := (Label.parameter "x" .float).node 0 .empty []
  let inner := (Label.call half .float).node 1 .empty [x]
  let outer := (Label.call root .float).node 2 .empty [inner]
  have hx : Reached ⟨1, [x]⟩ := (Reached.start 0).assemble (by simp) rfl
  have hinner : Reached ⟨2, [inner, x]⟩ := hx.assemble (by simp) rfl
  let session : Session := ⟨3, [outer, inner, x]⟩
  have hreached : session.Reached := hinner.assemble (by simp) rfl
  have houter : session.Knows outer := knows_of_mem_held List.mem_cons_self
  let rewriter : Rewriter := ⟨[table.rule], 10⟩
  obtain ⟨outcome, store', hrun, hparts, -, hfunctions⟩ :=
    forwarding_replaces_signatures hreached houter htable
      (show rewriter.rules = [table.rule] from rfl) ⟨session.next, []⟩ (le_refl _)
  have hlabels : (answer (rewriter.rewrite outer ⟨session.next, []⟩)).map
      (fun outcome => outcome.node.preorder.map Node.label) =
        .ok [.call sqrt .float, .call sqrt .float, .parameter "x" .float] := rfl
  rw [hrun] at hlabels
  refine ⟨session, outer, table, rewriter, root, half, sqrt, outcome, store', hreached, houter,
    htable, rfl, hrun, Except.ok.inj hlabels, hparts [0], ?_⟩
  intro signature
  have hcalled : ∀ called, called ∈ outer.functions ↔ called = root ∨ called = half := by
    intro called
    rw [(hreached.sound.whole houter).functions_eq, Signature.mem_distinct, Signature.sort,
      List.mem_mergeSort]
    exact List.mem_pair
  have hends : table.endOf root = sqrt ∧ table.endOf half = sqrt := ⟨rfl, rfl⟩
  simp only [hfunctions, hcalled, exists_eq_or_imp, exists_eq_left, hends, or_self, eq_comm]

end

/-! ## Substitution -/

namespace Bindings

def substitutedLabel (bindings : Bindings) : Label → Label
  | .parameter name type =>
      match bindings.get? name with
      | some value => .constant value type
      | none => .parameter name type
  | label => label

variable {bindings : Bindings}

theorem arity_eq_zero_of_relabel {label : Label} {fault : NodeError}
    (hfault : bindings.relabel label = .error fault) : label.arity = 0 := by
  cases label with
  | parameter name type => rfl
  | _ => cases hfault

theorem typeOf_substitutedLabel (bindings : Bindings) (label : Label)
    (types : List DataType) :
    (bindings.substitutedLabel label).typeOf types = label.typeOf types := by
  cases label with
  | parameter name type =>
      simp only [substitutedLabel]
      split <;> rfl
  | _ => rfl

end Bindings

section

variable [ForeignTypes]

open Session

namespace Bindings

/-- A parameter that is bound to a value which its declared type does not take, and the
fault that it is. -/
inductive Misfit (bindings : Bindings) : Node → NodeError → Prop
  | bound {node : Node} {name : String} {type : DataType} {value : Literal} :
      node.label = .parameter name type → bindings.get? name = some value →
      type.accepts value.dataType = false →
      Misfit bindings node (.incompatibleBinding name type value.dataType)

variable {bindings : Bindings}

theorem fault?_eq_some_iff {node : Node} {fault : NodeError} :
    bindings.relabel.fault? node = some fault ↔ bindings.Misfit node fault := by
  constructor
  · intro hfault
    unfold Relabelling.fault? at hfault
    cases hlabel : node.label with
    | parameter name type =>
        rw [hlabel, relabel] at hfault
        cases hget : bindings.get? name with
        | none => simp [hget] at hfault
        | some value =>
            cases haccepts : type.accepts value.dataType with
            | false =>
                obtain rfl : NodeError.incompatibleBinding name type value.dataType = fault := by
                  simpa [hget, haccepts] using hfault
                exact .bound hlabel hget haccepts
            | true => simp [hget, haccepts] at hfault
    | _ => simp [hlabel, relabel] at hfault
  · rintro ⟨hlabel, hget, haccepts⟩
    simp [Relabelling.fault?, hlabel, relabel, hget, haccepts]

theorem fault?_eq_none_iff {node : Node} :
    bindings.relabel.fault? node = none ↔ ∀ fault, ¬ bindings.Misfit node fault := by
  simp only [Option.eq_none_iff_forall_ne_some, ne_eq, fault?_eq_some_iff]

theorem fault?_normal (bindings : Bindings) (node : Node) :
    bindings.relabel.fault? node.normal = bindings.relabel.fault? node := by
  unfold Relabelling.fault?
  rw [Node.normal_label]
  cases node.label <;> rfl

theorem puts_substitutedLabel (bindings : Bindings) :
    bindings.rule.Puts bindings.substitutedLabel := by
  intro node next last outcome harity hrun
  cases hlabel : node.label with
  | parameter name type =>
      cases hget : bindings.get? name with
      | none =>
          simp only [rule, apply, hlabel, hget] at hrun
          cases hrun
          apply Outcome.puts_unchanged
          simp only [hlabel, substitutedLabel, hget]
      | some value =>
          simp only [rule, apply, hlabel, hget] at hrun
          split at hrun
          · cases hrun
            have hchildren : node.children = [] := by
              apply List.length_eq_zero_iff.mp
              rw [harity, hlabel]
              rfl
            refine ⟨?_, rfl, hchildren.symm, ?_⟩
            · simp only [hlabel, substitutedLabel, hget]
              rfl
            · intro hkept
              simp [hlabel, substitutedLabel, hget] at hkept
          · cases hrun
  | _ =>
      simp only [rule, apply, hlabel] at hrun
      cases hrun
      apply Outcome.puts_unchanged
      simp only [hlabel, substitutedLabel]

end Bindings

/-- A pass of a substitution over a known plan fails exactly if some parameter of the
plan is bound to a value that its declared type does not take, and over the first of
those.  Otherwise at every position of the result stands what stood there before, only
that bound parameters are constants of the declared types; the parameters are those that
are not bound, and the tables are the same nodes. -/
theorem substitution_replaces_parameters {session : Session} (hreached : session.Reached)
    {node : Node} (hnode : session.Knows node) (bindings : Bindings) {rewriter : Rewriter}
    (hrules : rewriter.rules = [bindings.rule]) (store : Store Journal)
    (hstore : session.next ≤ store.next) :
    ((∃ fault, answer (rewriter.rewrite node store) = .error fault) ↔
      ∃ part ∈ node.preorder, ∃ fault, bindings.Misfit part fault) ∧
    (∀ fault, answer (rewriter.rewrite node store) = .error fault ↔
      ∃ before part after, node.preorder = before ++ part :: after ∧
        bindings.Misfit part fault ∧
        ∀ earlier ∈ before, ∀ other, ¬ bindings.Misfit earlier other) ∧
    ((∀ part ∈ node.preorder, ∀ fault, ¬ bindings.Misfit part fault) →
      ∃ outcome store', rewriter.rewrite node store = .ok outcome store' ∧
        (∀ path, Option.Rel (Node.MatchesBy bindings.substitutedLabel) (node.at? path)
          (outcome.node.at? path)) ∧
        outcome.node.parameters =
          node.parameters.filter (fun entry => (bindings.get? entry.1).isNone) ∧
        outcome.node.tables = node.tables) := by
  have hrelabels := bindings.relabels session
  have hfails : ∀ fault, answer (rewriter.rewrite node store) = .error fault ↔
      node.preorder.findSome? bindings.relabel.fault? = some fault := by
    intro fault
    rw [Rewriter.answer_eq_error_iff hreached hnode hrules hrelabels
      (fun _ _ => Bindings.arity_eq_zero_of_relabel) hstore, List.findSome?_map]
    simp only [Function.comp_def, Bindings.fault?_normal]
  have hsome : (∃ fault, answer (rewriter.rewrite node store) = .error fault) ↔
      ∃ part ∈ node.preorder, ∃ fault, bindings.Misfit part fault := by
    simp only [hfails, ← Option.isSome_iff_exists, List.findSome?_isSome_iff,
      ← Bindings.fault?_eq_some_iff]
  refine ⟨hsome, ?_, ?_⟩
  · intro fault
    rw [hfails, List.findSome?_eq_some_iff]
    simp only [Bindings.fault?_eq_some_iff, Bindings.fault?_eq_none_iff]
  · intro hfit
    have hwhole := hreached.sound.whole hnode
    have hfaultless : ∀ part ∈ node.preorder,
        bindings.relabel.fault? part.normal = none := by
      intro part hpart
      rw [Bindings.fault?_normal, Bindings.fault?_eq_none_iff]
      exact hfit part hpart
    obtain ⟨outcome, store', hrun, hnew, hresult⟩ := Rewriter.exists_relabelledBy hreached
      hnode hrules hrelabels bindings.puts_substitutedLabel bindings.typeOf_substitutedLabel
      (fun _ _ => Bindings.arity_eq_zero_of_relabel) hstore hfaultless
    refine ⟨outcome, store', hrun, hresult.matchesBy_at?, ?_, ?_⟩
    · apply hresult.parameters_eq hwhole hnew fun name => (bindings.get? name).isNone
      intro part newPart hpart
      unfold Node.declaration?
      rw [hpart.label]
      cases part.label with
      | parameter name type =>
          cases hget : bindings.get? name <;>
            simp [Bindings.substitutedLabel, hget, Option.filter]
      | _ => rfl
    · apply hresult.tables_eq hwhole hnew
      · intro label hlabel
        cases label <;> first | rfl | cases hlabel
      · intro label hlabel
        cases label with
        | parameter name type =>
            cases hget : bindings.get? name <;>
              simp [Bindings.substitutedLabel, hget, Label.kind]
        | _ => exact hlabel

end

open Session
open scoped Hints

/-- Parameters of one name that are declared with three types, of which the first takes
the value that the name is bound to. -/
theorem substitution_replaces_parameters_redeclared :
    ∃ (session : Session) (good bad : Node) (bindings : Bindings) (rewriter : Rewriter)
      (pick all : Signature) (outcome : Outcome) (store' : Store Journal),
      session.Reached ∧ session.Knows good ∧ session.Knows bad ∧
        rewriter.rules = [bindings.rule] ∧ bindings.get? "x" = some (.int 4) ∧
        good.preorder.map Node.label =
          [.call pick .float, .parameter "x" .float, .parameter "y" .string] ∧
        rewriter.rewrite good ⟨session.next, []⟩ = .ok outcome store' ∧
        outcome.node.preorder.map Node.label =
          [.call pick .float, .constant (.int 4) .float, .parameter "y" .string] ∧
        outcome.node.parameters = [("y", .string)] ∧
        bad.preorder.map Node.label =
          [.call all .float, .call pick .float, .parameter "x" .float,
            .parameter "y" .string, .parameter "x" .boolean, .parameter "x" .string] ∧
        answer (rewriter.rewrite bad ⟨session.next, []⟩) =
          .error (.incompatibleBinding "x" .boolean .integer) := by
  let pick : Signature := ⟨none, "pick", ["float", "string"]⟩
  let all : Signature := ⟨none, "all", ["float", "bool", "string"]⟩
  let bindings := Bindings.empty.bind "x" (.int 4)
  let rewriter : Rewriter := ⟨[bindings.rule], 10⟩
  let x := (Label.parameter "x" .float).node 0 .empty []
  let y := (Label.parameter "y" .string).node 1 .empty []
  let good := (Label.call pick .float).node 2 .empty [x, y]
  let flag := (Label.parameter "x" .boolean).node 3 .empty []
  let text := (Label.parameter "x" .string).node 4 .empty []
  let bad := (Label.call all .float).node 5 .empty [good, flag, text]
  have hx : Reached ⟨1, [x]⟩ := (Reached.start 0).assemble (by simp) rfl
  have hy : Reached ⟨2, [y, x]⟩ := hx.assemble (by simp) rfl
  have hgood : Reached ⟨3, [good, y, x]⟩ := hy.assemble (by simp) rfl
  have hflag : Reached ⟨4, [flag, good, y, x]⟩ := hgood.assemble (by simp) rfl
  have htext : Reached ⟨5, [text, flag, good, y, x]⟩ := hflag.assemble (by simp) rfl
  let session : Session := ⟨6, [bad, text, flag, good, y, x]⟩
  have hreached : session.Reached := htext.assemble (by simp) rfl
  have hknows : ∀ node ∈ [good, bad], session.Knows node := by
    intro node hnode
    apply knows_of_mem_held
    rcases List.mem_pair.mp hnode with rfl | rfl <;> simp [session]
  have hrules : rewriter.rules = [bindings.rule] := rfl
  have hfit : ∀ part ∈ [bad, good, x, y], ∀ fault, ¬ bindings.Misfit part fault := by
    simp only [← Bindings.fault?_eq_none_iff, List.forall_mem_cons]
    exact ⟨rfl, rfl, rfl, rfl, by simp⟩
  have hmisfit : bindings.Misfit flag
      (.incompatibleBinding "x" .boolean (Literal.int 4).dataType) := .bound rfl rfl rfl
  obtain ⟨-, -, hsucceeds⟩ := substitution_replaces_parameters hreached
    (hknows good (by simp)) bindings hrules ⟨session.next, []⟩ (le_refl _)
  obtain ⟨-, hfails, -⟩ := substitution_replaces_parameters hreached
    (hknows bad (by simp)) bindings hrules ⟨session.next, []⟩ (le_refl _)
  obtain ⟨outcome, store', hrun, -, hparameters, -⟩ :=
    hsucceeds (List.forall_mem_cons.mp hfit).2
  have hlabels : (answer (rewriter.rewrite good ⟨session.next, []⟩)).map
      (fun outcome => outcome.node.preorder.map Node.label) =
        .ok [.call pick .float, .constant (.int 4) .float, .parameter "y" .string] := rfl
  rw [hrun] at hlabels
  refine ⟨session, good, bad, bindings, rewriter, pick, all, outcome, store', hreached,
    hknows good (by simp), hknows bad (by simp), hrules, rfl, rfl, hrun,
    Except.ok.inj hlabels, hparameters, rfl, ?_⟩
  exact (hfails _).mpr ⟨[bad, good, x, y], flag, [text], rfl, hmisfit, hfit⟩

end QueryPlan
