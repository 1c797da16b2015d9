import QueryPlan.Proofs.Rewrite.Trace

/-!
# What a pass renews

In a minimal trace a node is made where one of the children was renewed, and
nowhere else.  What this means for the positions of a whole plan follows from the
trace alone: where nothing is replaced nothing is renewed, and a single
replacement renews the positions above it and no others.
-/

namespace QueryPlan

/-- Where one member of a list alone contributes. -/
theorem flatMap_eq_of_getElem? {α β : Type} {f : α → List β} {members : List α}
    {place : Nat} {member : α} (hmember : members[place]? = some member)
    (hothers : ∀ other x, members[other]? = some x → other ≠ place → f x = []) :
    members.flatMap f = f member := by
  induction members generalizing place with
  | nil => cases hmember
  | cons first rest ih =>
      cases place with
      | zero =>
          obtain rfl := Option.some.inj hmember
          have hrest : rest.flatMap f = [] := by
            apply List.flatMap_eq_nil_iff.mpr
            intro x hx
            obtain ⟨other, hother⟩ := List.mem_iff_getElem?.mp hx
            exact hothers (other + 1) x hother (Nat.succ_ne_zero other)
          rw [List.flatMap_cons, hrest, List.append_nil]
      | succ place =>
          rw [List.flatMap_cons, hothers 0 first rfl (Nat.succ_ne_zero place).symm,
            List.nil_append]
          apply ih hmember
          intro other x hx hne
          exact hothers (other + 1) x hx fun heq => hne (Nat.succ.inj heq)

variable [ForeignTypes]

/-- The handle of a node is that of no known node. -/
def Session.Fresh (session : Session) (node : Node) : Prop :=
  ∀ old, session.Knows old → node.handle ≠ old.handle

theorem Session.Fresh.mono {session later : Session} {node : Node}
    (hfresh : later.Fresh node) (hlater : later.Extends session) : session.Fresh node :=
  fun old hold => hfresh old (hlater old hold)

namespace Trace

/-- The rewriter made a new node. -/
def Reallocated (trace : Trace) : Prop :=
  trace.rebuilt.handle ≠ trace.given.handle

/-- The rules put another node in the place of the rebuilt one. -/
def Replaced (trace : Trace) : Prop :=
  trace.result.handle ≠ trace.rebuilt.handle

/-- Another node stands at the position after the pass. -/
def Renewed (trace : Trace) : Prop :=
  trace.result.handle ≠ trace.given.handle

/-- No rule answers a change, here or below. -/
def Quiet (trace : Trace) : Prop :=
  trace.Everywhere fun part => ∀ answer ∈ part.answers, answer.isChanged = false

/-- Nothing is replaced, here or below. -/
def Still (trace : Trace) : Prop :=
  trace.Everywhere fun part => ¬ part.Replaced

/-- The rules put another node in the place of one position alone. -/
structure ReplacesOnlyAt (path : List Nat) (trace : Trace) : Prop where
  replaced : ∃ part, trace.at? path = some part ∧ part.Replaced
  only : ∀ other part, trace.at? other = some part → part.Replaced → other = path

/-- What holds of each part of the trace of a pass that began in a session. -/
structure Minimal (session : Session) (trace : Trace) : Prop where
  parts : trace.parts.map given = trace.given.children
  label : trace.rebuilt.label = trace.given.label
  annotations : trace.rebuilt.annotations = trace.given.annotations
  children : trace.rebuilt.children = trace.parts.map result
  reallocated_iff : trace.Reallocated ↔ ∃ part ∈ trace.parts, part.Renewed
  kept : ¬ trace.Reallocated → trace.rebuilt = trace.given
  fresh : trace.Reallocated → session.Fresh trace.rebuilt
  eq_rebuilt : ¬ trace.Replaced → trace.result = trace.rebuilt
  eq_given : ¬ trace.Renewed → trace.result = trace.given

theorem Minimal.mono {session later : Session} {trace : Trace}
    (hminimal : trace.Minimal later) (hlater : later.Extends session) :
    trace.Minimal session :=
  { hminimal with
    fresh := fun hreallocated => (hminimal.fresh hreallocated).mono hlater }

theorem exists_renewed_iff {parts : List Trace}
    (hparts : ∀ part ∈ parts, ¬ part.Renewed → part.result = part.given) :
    (∃ part ∈ parts, part.Renewed) ↔ parts.map result ≠ parts.map given := by
  constructor
  · rintro ⟨part, hpart, hrenewed⟩ hsame
    exact hrenewed (congrArg Node.handle (List.map_eq_map_iff.mp hsame part hpart))
  · intro hne
    by_contra hnone
    apply hne
    apply List.map_congr_left
    intro part hpart
    exact hparts part hpart fun hrenewed => hnone ⟨part, hpart, hrenewed⟩

section Minimal

variable {session : Session} {trace : Trace}

/-! ## Where nothing is replaced -/

theorem Quiet.still (hquiet : trace.Quiet) : trace.Still := by
  intro path part hpart hreplaced
  apply hreplaced
  rw [result, Node.follow_of_unchanged (hquiet path part hpart)]

theorem Minimal.not_reallocated (hminimal : trace.Minimal session)
    (hparts : ∀ part ∈ trace.parts, part.result = part.given) :
    ¬ trace.Reallocated := by
  rw [hminimal.reallocated_iff]
  rintro ⟨part, hpart, hrenewed⟩
  exact hrenewed (congrArg Node.handle (hparts part hpart))

theorem Still.result_eq (hstill : trace.Still)
    (hminimal : trace.Everywhere (Minimal session)) : trace.result = trace.given := by
  induction trace using Trace.inductionOn with
  | step trace ih =>
      have hkept : ¬ trace.Reallocated := hminimal.self.not_reallocated
        fun part hpart => ih part hpart (hstill.part hpart) (hminimal.part hpart)
      calc
        trace.result = trace.rebuilt := hminimal.self.eq_rebuilt hstill.self
        _ = trace.given := hminimal.self.kept hkept

theorem Still.not_reallocated (hstill : trace.Still)
    (hminimal : trace.Everywhere (Minimal session)) : ¬ trace.Reallocated :=
  hminimal.self.not_reallocated fun _ hpart =>
    Still.result_eq (hstill.part hpart) (hminimal.part hpart)

theorem everywhere_kept (hminimal : trace.Everywhere (Minimal session))
    (hstill : ∀ part ∈ trace.parts, part.Still) :
    trace.Everywhere fun part => ¬ part.Reallocated := by
  rw [everywhere_iff]
  constructor
  · exact hminimal.self.not_reallocated fun part hpart =>
      (hstill part hpart).result_eq (hminimal.part hpart)
  · intro part hpart path inner hinner
    exact Still.not_reallocated ((hstill part hpart).at hinner)
      ((hminimal.part hpart).at hinner)

theorem allocated_of_not_reallocated (hkept : ¬ trace.Reallocated) :
    trace.allocated = trace.parts.flatMap allocated := by
  have his : trace.rebuilt.is trace.given = true := by
    simpa [Node.is, Reallocated] using hkept
  rw [allocated_eq, if_pos his, List.append_nil]

theorem allocated_of_reallocated (hreallocated : trace.Reallocated) :
    trace.allocated = trace.parts.flatMap allocated ++ [trace.rebuilt] := by
  have his : ¬ trace.rebuilt.is trace.given = true := by
    simpa [Node.is, Reallocated] using hreallocated
  rw [allocated_eq, if_neg his]

theorem allocated_eq_nil (hkept : trace.Everywhere fun part => ¬ part.Reallocated) :
    trace.allocated = [] := by
  induction trace using Trace.inductionOn with
  | step trace ih =>
      rw [allocated_of_not_reallocated hkept.self]
      apply List.flatMap_eq_nil_iff.mpr
      exact fun part hpart => ih part hpart (hkept.part hpart)

/-! ## Where one position is replaced -/

theorem ReplacesOnlyAt.of_nil (hone : trace.ReplacesOnlyAt []) :
    trace.Replaced ∧ ∀ part ∈ trace.parts, part.Still := by
  obtain ⟨part, hpart, hreplaced⟩ := hone.replaced
  obtain rfl := Option.some.inj hpart
  refine ⟨hreplaced, ?_⟩
  intro part hpart path inner hinner hreplaced
  obtain ⟨place, hplace⟩ := List.mem_iff_getElem?.mp hpart
  cases hone.only _ inner (at?_cons_eq_some_iff.mpr ⟨part, hplace, hinner⟩) hreplaced

theorem ReplacesOnlyAt.of_cons {place : Nat} {rest : List Nat}
    (hone : trace.ReplacesOnlyAt (place :: rest)) :
    ¬ trace.Replaced ∧
      (∃ part, trace.parts[place]? = some part ∧ part.ReplacesOnlyAt rest) ∧
      ∀ other part, trace.parts[other]? = some part → other ≠ place → part.Still := by
  obtain ⟨inner, hinner, hreplaced⟩ := hone.replaced
  obtain ⟨part, hpart, hinner⟩ := at?_cons_eq_some_iff.mp hinner
  have honly : ∀ other path sibling inner, trace.parts[other]? = some sibling →
      sibling.at? path = some inner → inner.Replaced →
      other :: path = place :: rest := by
    intro other path sibling inner hsibling hinner
    exact hone.only _ inner (at?_cons_eq_some_iff.mpr ⟨sibling, hsibling, hinner⟩)
  refine ⟨?_, ⟨part, hpart, ⟨inner, hinner, hreplaced⟩, ?_⟩, ?_⟩
  · intro hroot
    cases hone.only [] trace rfl hroot
  · intro path other hother hreplaced
    exact List.tail_eq_of_cons_eq (honly place path part other hpart hother hreplaced)
  · intro other sibling hsibling hne path inner hinner hreplaced
    exact hne (List.head_eq_of_cons_eq
      (honly other path sibling inner hsibling hinner hreplaced))

theorem reallocated_of_renewed (hminimal : trace.Minimal session) {place : Nat}
    {part : Trace} (hpart : trace.parts[place]? = some part) (hrenewed : part.Renewed) :
    trace.Reallocated :=
  hminimal.reallocated_iff.mpr ⟨part, List.mem_of_getElem? hpart, hrenewed⟩

theorem ReplacesOnlyAt.renewed {path : List Nat} (hone : trace.ReplacesOnlyAt path)
    (hminimal : trace.Everywhere (Minimal session)) : trace.Renewed := by
  induction path generalizing trace with
  | nil =>
      obtain ⟨hreplaced, hstill⟩ := hone.of_nil
      have hkept := hminimal.self.kept (everywhere_kept hminimal hstill).self
      rw [Renewed, ← hkept]
      exact hreplaced
  | cons place rest ih =>
      obtain ⟨hroot, ⟨part, hpart, hone⟩, -⟩ := hone.of_cons
      have hrenewed := ih hone (hminimal.part (List.mem_of_getElem? hpart))
      rw [Renewed, hminimal.self.eq_rebuilt hroot]
      exact reallocated_of_renewed hminimal.self hpart hrenewed

theorem ReplacesOnlyAt.length_allocated {path : List Nat}
    (hone : trace.ReplacesOnlyAt path)
    (hminimal : trace.Everywhere (Minimal session)) :
    trace.allocated.length = path.length := by
  induction path generalizing trace with
  | nil =>
      obtain ⟨-, hstill⟩ := hone.of_nil
      rw [allocated_eq_nil (everywhere_kept hminimal hstill)]
      rfl
  | cons place rest ih =>
      obtain ⟨-, ⟨part, hpart, hone⟩, hstill⟩ := hone.of_cons
      have hpartMinimal := hminimal.part (List.mem_of_getElem? hpart)
      have hreallocated := reallocated_of_renewed hminimal.self hpart
        (hone.renewed hpartMinimal)
      have hothers : ∀ other sibling, trace.parts[other]? = some sibling →
          other ≠ place → sibling.allocated = [] := by
        intro other sibling hsibling hne
        exact allocated_eq_nil (everywhere_kept
          (hminimal.part (List.mem_of_getElem? hsibling))
          fun _ hpart => (hstill other sibling hsibling hne).part hpart)
      rw [allocated_of_reallocated hreallocated,
        flatMap_eq_of_getElem? hpart hothers, List.length_append,
        ih hone hpartMinimal]
      rfl

theorem ReplacesOnlyAt.reallocated_iff {path : List Nat}
    (hone : trace.ReplacesOnlyAt path)
    (hminimal : trace.Everywhere (Minimal session)) {other : List Nat} {part : Trace}
    (hpart : trace.at? other = some part) :
    part.Reallocated ↔ other <+: path ∧ other ≠ path := by
  induction path generalizing trace other with
  | nil =>
      obtain ⟨-, hstill⟩ := hone.of_nil
      have hkept := everywhere_kept hminimal hstill other part hpart
      simp [hkept]
  | cons place rest ih =>
      obtain ⟨-, ⟨child, hchild, hone⟩, hstill⟩ := hone.of_cons
      cases other with
      | nil =>
          obtain rfl := Option.some.inj hpart
          have hchildMinimal := hminimal.part (List.mem_of_getElem? hchild)
          have hreallocated := reallocated_of_renewed hminimal.self hchild
            (hone.renewed hchildMinimal)
          simp [hreallocated]
      | cons otherPlace otherRest =>
          obtain ⟨sibling, hsibling, hpart⟩ := at?_cons_eq_some_iff.mp hpart
          have hsiblingMinimal := hminimal.part (List.mem_of_getElem? hsibling)
          by_cases hplace : otherPlace = place
          · subst hplace
            obtain rfl := Option.some.inj (hsibling.symm.trans hchild)
            simpa [List.cons_prefix_cons] using ih hone hsiblingMinimal hpart
          · have hkept := Still.not_reallocated
              ((hstill otherPlace sibling hsibling hplace).at hpart)
              (hsiblingMinimal.at hpart)
            simp [hkept, List.cons_prefix_cons, hplace]

theorem ReplacesOnlyAt.result_eq {path : List Nat}
    (hone : trace.ReplacesOnlyAt path)
    (hminimal : trace.Everywhere (Minimal session)) {other : List Nat} {part : Trace}
    (hpart : trace.at? other = some part) (hother : ¬ other <+: path) :
    part.result = part.given := by
  have hpartMinimal := hminimal.at hpart
  have hkept : ¬ part.Reallocated := by
    rw [hone.reallocated_iff hminimal hpart]
    exact fun hprefix => hother hprefix.1
  have hunreplaced : ¬ part.Replaced := by
    intro hreplaced
    obtain rfl := hone.only other part hpart hreplaced
    exact hother List.prefix_rfl
  calc
    part.result = part.rebuilt := hpartMinimal.self.eq_rebuilt hunreplaced
    _ = part.given := hpartMinimal.self.kept hkept

/-- The plan after the pass has the results at their positions, as far down as
nothing above was replaced. -/
theorem at?_result (hminimal : trace.Everywhere (Minimal session)) {path : List Nat}
    (habove : ∀ other part, trace.at? other = some part → other <+: path →
      other ≠ path → ¬ part.Replaced) :
    trace.result.at? path = (trace.at? path).map result := by
  induction path generalizing trace with
  | nil => rfl
  | cons place rest ih =>
      have hroot : ¬ trace.Replaced :=
        habove [] trace rfl List.nil_prefix (List.cons_ne_nil place rest).symm
      rw [at?_cons, Node.at?_cons, hminimal.self.eq_rebuilt hroot,
        hminimal.self.children, List.getElem?_map]
      cases hpart : trace.parts[place]? with
      | none => rfl
      | some part =>
          apply ih (hminimal.part (List.mem_of_getElem? hpart))
          intro other inner hinner hprefix hne
          apply habove (place :: other) inner
          · exact at?_cons_eq_some_iff.mpr ⟨part, hpart, hinner⟩
          · exact List.cons_prefix_cons.mpr ⟨rfl, hprefix⟩
          · exact fun heq => hne (List.tail_eq_of_cons_eq heq)

theorem ReplacesOnlyAt.at?_result {path other : List Nat}
    (hone : trace.ReplacesOnlyAt path) (hminimal : trace.Everywhere (Minimal session))
    (hother : path <+: other → other = path) :
    trace.result.at? other = (trace.at? other).map result := by
  apply Trace.at?_result hminimal
  intro above part hpart hprefix hne hreplaced
  obtain rfl := hone.only above part hpart hreplaced
  exact hne (hother hprefix).symm

theorem ReplacesOnlyAt.at?_eq {path other : List Nat}
    (hone : trace.ReplacesOnlyAt path) (hminimal : trace.Everywhere (Minimal session))
    (habove : ¬ other <+: path) (hbelow : ¬ path <+: other) :
    trace.result.at? other = trace.given.at? other := by
  rw [hone.at?_result hminimal fun hprefix => absurd hprefix hbelow,
    ← map_given_at? fun path part hpart => (hminimal path part hpart).parts]
  cases hpart : trace.at? other with
  | none => rfl
  | some part => exact congrArg some (hone.result_eq hminimal hpart habove)

end Minimal

end Trace

end QueryPlan
