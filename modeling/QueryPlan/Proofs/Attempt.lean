import QueryPlan.Node.Store

/-!
# Runs of attempts

What a run of an attempt answers and the state in which it ends, whether it succeeds or
fails, and how the runs of two attempts one after the other are told from those of each.

Two attempts, whose states may be of different types, follow one another when from related
states they come to related states and answers.
-/

namespace QueryPlan

def answer {τ α : Type} : EStateM.Result NodeError τ α → Except NodeError α
  | .ok value _ => .ok value
  | .error fault _ => .error fault

def final {τ α : Type} : EStateM.Result NodeError τ α → τ
  | .ok _ state => state
  | .error _ state => state

namespace Attempt

variable {τ α β : Type} {action : Attempt τ α} {rest : α → Attempt τ β} {state later : τ}

theorem bind_of_eq_ok {value : α} (hrun : action state = .ok value later) :
    (action >>= rest) state = rest value later := by
  change EStateM.bind action rest state = rest value later
  rw [EStateM.bind, hrun]

theorem bind_of_eq_error {fault : NodeError} (hrun : action state = .error fault later) :
    (action >>= rest) state = .error fault later := by
  change EStateM.bind action rest state = .error fault later
  rw [EStateM.bind, hrun]

theorem bind_eq_ok_iff {last : τ} {result : β} :
    (action >>= rest) state = .ok result last ↔
      ∃ value middle, action state = .ok value middle ∧
        rest value middle = .ok result last := by
  change EStateM.bind action rest state = _ ↔ _
  unfold EStateM.bind
  cases action state with
  | ok value middle =>
      constructor
      · exact fun hrest => ⟨value, middle, rfl, hrest⟩
      · rintro ⟨_, _, hrun, hrest⟩
        cases hrun
        exact hrest
  | error fault middle => simp

theorem answer_map (f : α → β) :
    answer ((f <$> action) state) = (answer (action state)).map f := by
  change answer (EStateM.map f action state) = _
  unfold EStateM.map
  cases action state <;> rfl

theorem final_map (f : α → β) : final ((f <$> action) state) = final (action state) := by
  change final (EStateM.map f action state) = _
  unfold EStateM.map
  cases action state <;> rfl

/-! ## Lists of attempts -/

section Lists

variable {values : List α} {change : α → Attempt τ β}

theorem mapM_nil_eq_ok_iff {state last : τ} {results : List β} :
    [].mapM change state = .ok results last ↔ results = [] ∧ last = state := by
  rw [List.mapM_nil]
  constructor
  · rintro ⟨⟩
    exact ⟨rfl, rfl⟩
  · rintro ⟨rfl, rfl⟩
    rfl

theorem mapM_cons_eq_ok_iff {first : α} {rest : List α} {state last : τ} {results : List β} :
    (first :: rest).mapM change state = .ok results last ↔
      ∃ result middle others, change first state = .ok result middle ∧
        rest.mapM change middle = .ok others last ∧ results = result :: others := by
  simp only [List.mapM_cons, bind_eq_ok_iff]
  constructor
  · rintro ⟨result, middle, hfirst, others, later, hrest, hresults⟩
    cases hresults
    exact ⟨result, middle, others, hfirst, hrest, rfl⟩
  · rintro ⟨result, middle, others, hfirst, hrest, rfl⟩
    exact ⟨result, middle, hfirst, others, last, hrest, rfl⟩

theorem length_of_mapM {state last : τ} {results : List β}
    (hrun : values.mapM change state = .ok results last) : results.length = values.length := by
  induction values generalizing state results with
  | nil => exact congrArg List.length (mapM_nil_eq_ok_iff.mp hrun).1
  | cons value rest ih =>
      obtain ⟨result, middle, others, -, hrest, rfl⟩ := mapM_cons_eq_ok_iff.mp hrun
      rw [List.length_cons, List.length_cons, ih hrest]

theorem exists_mapM_eq_ok
    (hchange : ∀ value ∈ values, ∀ state, ∃ result later, change value state = .ok result later)
    (state : τ) : ∃ results last, values.mapM change state = .ok results last := by
  induction values generalizing state with
  | nil => exact ⟨[], state, mapM_nil_eq_ok_iff.mpr ⟨rfl, rfl⟩⟩
  | cons value rest ih =>
      obtain ⟨hvalue, hrest⟩ := List.forall_mem_cons.mp hchange
      obtain ⟨result, middle, hrun⟩ := hvalue state
      obtain ⟨results, last, hresults⟩ := ih hrest middle
      exact ⟨result :: results, last,
        mapM_cons_eq_ok_iff.mpr ⟨result, middle, results, hrun, hresults, rfl⟩⟩

theorem mapM_append_of_eq_ok {others : List α} {state middle last : τ} {results more : List β}
    (hvalues : values.mapM change state = .ok results middle)
    (hothers : others.mapM change middle = .ok more last) :
    (values ++ others).mapM change state = .ok (results ++ more) last := by
  rw [List.mapM_append, bind_of_eq_ok hvalues, bind_of_eq_ok hothers]
  rfl

end Lists

end Attempt

theorem Work.own_ofBuild {σ α : Type} (build : Build α) (store : Store σ) :
    (final (Work.ofBuild build store)).own = store.own := by
  unfold Work.ofBuild
  cases build store.next <;> rfl

theorem Work.answer_ofBuild {σ α : Type} (build : Build α) (store : Store σ) :
    answer (Work.ofBuild build store) = answer (build store.next) := by
  unfold Work.ofBuild
  cases build store.next <;> rfl

/-- From related states the second action leads to related states, and answers what `read`
makes of the answer of the first. -/
def Follows {τ υ α β : Type} (related : τ → υ → Prop) (read : α → β) (action : Attempt τ α)
    (other : Attempt υ β) : Prop :=
  ∀ state state', related state state' →
    related (final (action state)) (final (other state')) ∧
      answer (other state') = (answer (action state)).map read

namespace Follows

variable {τ υ α β γ δ : Type} {related : τ → υ → Prop} {read : α → β}

theorem pure {value : α} : Follows related read (Pure.pure value) (Pure.pure (read value)) :=
  fun _ _ hstates => ⟨hstates, rfl⟩

theorem throw {fault : NodeError} :
    Follows related read (MonadExcept.throw fault) (MonadExcept.throw fault) :=
  fun _ _ hstates => ⟨hstates, rfl⟩

theorem ofExcept {check : Except NodeError α} {check' : Except NodeError β}
    (hcheck : check' = check.map read) :
    Follows related read (Attempt.ofExcept check) (Attempt.ofExcept check') := by
  subst hcheck
  cases check with
  | ok value => exact pure
  | error fault => exact throw

theorem bind {action : Attempt τ α} {other : Attempt υ β} {rest : α → Attempt τ γ}
    {rest' : β → Attempt υ δ} {read' : γ → δ} (haction : Follows related read action other)
    (hrest : ∀ value, Follows related read' (rest value) (rest' (read value))) :
    Follows related read' (action >>= rest) (other >>= rest') := by
  intro state state' hstates
  obtain ⟨hfinal, hanswer⟩ := haction state state' hstates
  change related (final (EStateM.bind action rest state))
      (final (EStateM.bind other rest' state')) ∧
    answer (EStateM.bind other rest' state') =
      (answer (EStateM.bind action rest state)).map read'
  unfold EStateM.bind
  cases hrun : action state with
  | ok value later =>
      cases hrun' : other state' with
      | ok value' later' =>
          rw [hrun, hrun'] at hfinal hanswer
          obtain rfl : value' = read value := Except.ok.inj hanswer
          exact hrest value later later' hfinal
      | error fault later' =>
          rw [hrun, hrun'] at hanswer
          cases hanswer
  | error fault later =>
      cases hrun' : other state' with
      | ok value' later' =>
          rw [hrun, hrun'] at hanswer
          cases hanswer
      | error fault' later' =>
          rw [hrun, hrun'] at hfinal hanswer
          obtain rfl : fault' = fault := Except.error.inj hanswer
          exact ⟨hfinal, rfl⟩

end Follows

end QueryPlan
