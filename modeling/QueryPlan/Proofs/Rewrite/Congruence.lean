import QueryPlan.Proofs.Annotations.Hints
import QueryPlan.Proofs.Rewrite.StandardRules

/-!
# Rewriting respects equality

Plans that are the same are rewritten to plans that are the same, or fail with
the same fault, whatever handles the plans have and whatever handles are still
to be given out.  Both runs compute the same rewriting of the one normal form.
-/

namespace QueryPlan

section

variable [ForeignTypes]

open ForeignTypes (LawfulEqual)

open Session

namespace Rewriter

/-- Two runs fail with one fault, or answer plans that are the same.  The plans
are the same even if no handle is looked at. -/
def Agree : Except NodeError Outcome → Except NodeError Outcome → Prop
  | .ok outcome, .ok other =>
      outcome.node.same other.node = true ∧ outcome.node.normal = other.node.normal
  | .error fault, .error other => fault = other
  | _, _ => False

/-- The normal form of the answer of a run. -/
noncomputable def normalAnswer (result : Except NodeError Outcome) : Except NodeError Node :=
  result.map (·.node.normal)

theorem agree_of_normalAnswer_eq [LawfulEqual] {result other : Except NodeError Outcome}
    (hnormal : normalAnswer result = normalAnswer other) : Agree result other := by
  cases result with
  | error fault =>
      cases other with
      | error fault' => exact Except.error.inj hnormal
      | ok outcome => cases hnormal
  | ok outcome =>
      cases other with
      | error fault => cases hnormal
      | ok outcome' =>
          have hnodes := Except.ok.inj hnormal
          exact ⟨outcome.node.lawful.same_of_normal_eq hnodes, hnodes⟩

end Rewriter

theorem exists_steps {good : Rule → Step → Prop} {rules : List Rule}
    (hrules : ∀ rule ∈ rules, ∃ step, good rule step) :
    ∃ steps, List.Forall₂ good rules steps := by
  induction rules with
  | nil => exact ⟨[], .nil⟩
  | cons rule rest ih =>
      obtain ⟨step, hstep⟩ := hrules rule List.mem_cons_self
      obtain ⟨steps, hsteps⟩ :=
        ih fun other hother => hrules other (List.mem_cons_of_mem rule hother)
      exact ⟨step :: steps, .cons hstep hsteps⟩

section Answers

variable {session : Session} {node : Node} {rewriter : Rewriter} {steps : List Step}
  {store : Store Journal}

/-- An action that computes a normal form from a reached session does so from
every later state. -/
theorem normalAnswer_of_leads {action : Work Journal Outcome}
    {expected : Except NodeError Node} (hreached : session.Reached)
    (hstore : session.next ≤ store.next)
    (hleads : Leads (withJournal session.ReachedFrom) ⟨store.next, session.held⟩ action
      fun result later => AnswersNormal expected (result.map (·.node)) later) :
    Rewriter.normalAnswer (answer (action store)) = expected := by
  have hextends : Extends ⟨store.next, session.held⟩ session := fun _ hknown => hknown
  obtain ⟨later, -, -, -, hanswer⟩ := hleads store
    ⟨.forget session _ hreached hstore (fun _ hknown => hknown), rfl, hextends⟩
  rw [← hanswer]
  cases answer (action store) <;> rfl

theorem normalAnswer_rewrite (hreached : session.Reached)
    (hnode : session.Knows node)
    (hsteps : List.Forall₂ (Rule.Computes session) rewriter.rules steps)
    (hstore : session.next ≤ store.next) :
    Rewriter.normalAnswer (answer (rewriter.rewrite node store)) =
      NormalRewriting.rewriteNode steps node.normal := by
  have hlater : Knows ⟨store.next, session.held⟩ node := hnode
  apply normalAnswer_of_leads hreached hstore
  exact (leads_rewrite_normal hsteps rewriter rfl hlater).mono
    fun _ _ _ hresult => hresult.1

theorem normalAnswer_rewriteToFixpoint (hreached : session.Reached)
    (hnode : session.Knows node)
    (hsteps : List.Forall₂ (Rule.Computes session) rewriter.rules steps)
    (hstore : session.next ≤ store.next) :
    Rewriter.normalAnswer (answer (rewriter.rewriteToFixpoint node store)) =
      NormalRewriting.passes steps rewriter.maxPasses node.normal := by
  have hlater : Knows ⟨store.next, session.held⟩ node := hnode
  exact normalAnswer_of_leads hreached hstore
    (leads_rewriteToFixpoint_normal hsteps rewriter rfl hlater)

end Answers

/-- Known plans that are the same are rewritten alike by the standard rules, in
one pass and to the fixpoint, from any two later states. -/
theorem rewriting_respects_same [LawfulEqual] {session : Session} (hreached : session.Reached)
    {a b : Node} (ha : session.Knows a) (hb : session.Knows b)
    (hsame : a.same b = true) {rewriter : Rewriter}
    (hrules : ∀ rule ∈ rewriter.rules, rule.Standard session)
    (store store' : Store Journal) (hstore : session.next ≤ store.next)
    (hstore' : session.next ≤ store'.next) :
    Rewriter.Agree (answer (rewriter.rewrite a store))
        (answer (rewriter.rewrite b store')) ∧
      Rewriter.Agree (answer (rewriter.rewriteToFixpoint a store))
        (answer (rewriter.rewriteToFixpoint b store')) := by
  obtain ⟨steps, hsteps⟩ := exists_steps fun rule hrule =>
    (hrules rule hrule).exists_computes
  have hnormal := hreached.sound.normal_eq_of_same ha hb hsame
  constructor
  · apply Rewriter.agree_of_normalAnswer_eq
    rw [normalAnswer_rewrite hreached ha hsteps hstore,
      normalAnswer_rewrite hreached hb hsteps hstore', hnormal]
  · apply Rewriter.agree_of_normalAnswer_eq
    rw [normalAnswer_rewriteToFixpoint hreached ha hsteps hstore,
      normalAnswer_rewriteToFixpoint hreached hb hsteps hstore', hnormal]

end

open Session
open scoped Hints

/-- Two negations of equal parameters that share no handle.  A replacement finds
the parameter of the second plan in place already, but not that of the first. -/
theorem rewriting_respects_same_negations :
    ∃ (session : Session) (a b : Node) (rewriter : Rewriter) (store : Store Journal),
      session.Reached ∧ session.Knows a ∧ session.Knows b ∧
      a.handle ≠ b.handle ∧ a.same b = true ∧
      (∀ rule ∈ rewriter.rules, rule.Standard session) ∧ session.next ≤ store.next ∧
      Rewriter.Agree (answer (rewriter.rewrite a store))
        (answer (rewriter.rewrite b store)) ∧
      Rewriter.Agree (answer (rewriter.rewriteToFixpoint a store))
        (answer (rewriter.rewriteToFixpoint b store)) := by
  let p := (Label.parameter "p" .integer).node 0 .empty []
  let q := (Label.parameter "p" .integer).node 1 .empty []
  let a := (Label.unary .negate).node 2 .empty [p]
  let b := (Label.unary .negate).node 3 .empty [q]
  let session : Session := ⟨4, [b, a, q, p]⟩
  have hp : Reached ⟨1, [p]⟩ := (Reached.start 0).assemble (by simp) rfl
  have hq : Reached ⟨2, [q, p]⟩ := hp.assemble (by simp) rfl
  have ha : Reached ⟨3, [a, q, p]⟩ := hq.assemble (by simp) rfl
  have hreached : session.Reached := ha.assemble (by simp) rfl
  have hknowsP : session.Knows p := knows_of_mem_held (by simp [session])
  have hknowsQ : session.Knows q := knows_of_mem_held (by simp [session])
  have hknowsA : session.Knows a := knows_of_mem_held (by simp [session])
  have hknowsB : session.Knows b := knows_of_mem_held (by simp [session])
  let rewriter : Rewriter :=
    .ofRules [(Replacement.mk p q).rule, ForwardingTable.standard.rule,
      (Bindings.empty.bind "p" (.int 3)).rule]
  have hrules : ∀ rule ∈ rewriter.rules, rule.Standard session := by
    intro rule hrule
    rcases List.mem_cons.mp hrule with rfl | hrule
    · exact .replacement _ hknowsP hknowsQ
    · rcases List.mem_cons.mp hrule with rfl | hrule
      · exact .forwarding _ .standard
      · rw [List.mem_singleton.mp hrule]
        exact .substitution _
  have hsame : a.same b = true := by
    simp [a, b, p, q, Node.same, Node.sameAll, Label.node, Label.same, Annotations.same,
      Annotations.shares]
  have hresult := rewriting_respects_same hreached hknowsA hknowsB hsame hrules
    ⟨session.next, []⟩ ⟨session.next, []⟩ (le_refl _) (le_refl _)
  exact ⟨session, a, b, rewriter, ⟨session.next, []⟩, hreached, hknowsA, hknowsB,
    by decide, hsame, hrules, le_refl _, hresult⟩

end QueryPlan
