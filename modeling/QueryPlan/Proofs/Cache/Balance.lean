import Mathlib.Data.List.DropRight
import QueryPlan.Node.Build
import QueryPlan.Proofs.Annotations.Hints
import QueryPlan.Proofs.Cache.Operations

/-!
# The balance of the statistics

A cache counts in three places: where it looks a key up, where a computation has ended with a
value, and where one has failed.  What the counters come to is told by the calls alone: what
was asked, what was answered, and which computations ran and how they ended.

A computation is seen to run by a record that it keeps of its endings.  The table may drop
entries at any time, so nothing is said about which keys are found.
-/

namespace QueryPlan

section

variable [ForeignTypes]

namespace Caching

variable {K T V σ : Type}

/-! ## Calls that are observed -/

/-- How a computation of the caller ended. -/
inductive Ending where
  | succeeded
  | failed
  deriving DecidableEq

def Ending.of : Except String V → Ending
  | .ok _ => .succeeded
  | .error _ => .failed

/-- The computation, which now puts its ending at the end of a record. -/
def recordingEnding {α : Type} (ending : α → Ending) (compute : StateM σ α) :
    StateM (σ × List Ending) α := fun (own, endings) =>
  let (value, own) := compute own
  (value, (own, endings ++ [ending value]))

namespace Operation

/-- The operation, with a computation that records its ending. -/
def recording : Operation K V σ → Operation K V (σ × List Ending)
  | .on key .get => .on key .get
  | .on key .contains => .on key .contains
  | .on key (.insert value) => .on key (.insert value)
  | .on key (.getOrCompute compute) =>
      .on key (.getOrCompute (recordingEnding (fun _ => .succeeded) compute))
  | .on key (.tryGetOrCompute compute) =>
      .on key (.tryGetOrCompute (recordingEnding .of compute))
  | .on key .invalidate => .on key .invalidate
  | .clear => .clear
  | .count => .count

/-- Whether the cache is asked for the value of a key. -/
def asks : Operation K V σ → Bool
  | .on _ .get | .on _ (.getOrCompute _) | .on _ (.tryGetOrCompute _) => true
  | _ => false

def clears : Operation K V σ → Bool
  | .clear => true
  | _ => false

end Operation

/-- A call, with its answer and the endings of the computations that it ran. -/
structure Event (V σ : Type) where
  operation : Operation Node V σ
  answer : Answer V
  endings : List Ending

namespace Event

/-- A look-up that answered a value. -/
def found (event : Event V σ) : Bool :=
  match event.operation, event.answer with
  | .on _ .get, .entry (some _) => true
  | _, _ => false

/-- A look-up that answered nothing. -/
def missed (event : Event V σ) : Bool :=
  match event.operation, event.answer with
  | .on _ .get, .entry none => true
  | _, _ => false

/-- A call with a computation that answered a value and did not run it. -/
def served (event : Event V σ) : Bool :=
  match event.operation, event.answer with
  | .on _ (.getOrCompute _), .value _ => event.endings.isEmpty
  | .on _ (.tryGetOrCompute _), .result (.ok _) => event.endings.isEmpty
  | _, _ => false

/-- A call that asks the cache for the value of a key. -/
def asks (event : Event V σ) : Bool :=
  event.operation.asks

/-- What a call does to the statistics. -/
inductive Counts : Event V σ → (Statistics → Statistics) → Prop
  | found (key : Node) (value : V) : Counts ⟨.on key .get, .entry (some value), []⟩ hit
  | missed (key : Node) : Counts ⟨.on key .get, .entry none, []⟩ miss
  | contains (key : Node) (present : Bool) :
      Counts ⟨.on key .contains, .presence present, []⟩ id
  | insert (key : Node) (value : V) : Counts ⟨.on key (.insert value), .done, []⟩ id
  | served (key : Node) (compute : StateM σ V) (value : V) :
      Counts ⟨.on key (.getOrCompute compute), .value value, []⟩ hit
  | computed (key : Node) (compute : StateM σ V) (value : V) :
      Counts ⟨.on key (.getOrCompute compute), .value value, [.succeeded]⟩
        fun stats => { miss stats with computations := stats.computations + 1 }
  | tryServed (key : Node) (compute : StateM σ (Except String V)) (value : V) :
      Counts ⟨.on key (.tryGetOrCompute compute), .result (.ok value), []⟩ hit
  | tryComputed (key : Node) (compute : StateM σ (Except String V)) (value : V) :
      Counts ⟨.on key (.tryGetOrCompute compute), .result (.ok value), [.succeeded]⟩
        fun stats => { miss stats with computations := stats.computations + 1 }
  | tryFailed (key : Node) (compute : StateM σ (Except String V)) (fault : CacheError) :
      Counts ⟨.on key (.tryGetOrCompute compute), .result (.error fault), [.failed]⟩
        fun stats => { miss stats with failures := stats.failures + 1 }
  | invalidate (key : Node) : Counts ⟨.on key .invalidate, .done, []⟩ id
  | clear : Counts ⟨.clear, .done, []⟩ fun _ => .zero
  | count (number : Nat) : Counts ⟨.count, .number number, []⟩ id

/-- The calls that neither ask nor clear count nothing. -/
theorem Counts.eq_id {event : Event V σ} {change : Statistics → Statistics}
    (hcounts : event.Counts change) (hasks : event.operation.asks = false)
    (hclears : event.operation.clears = false) : change = id := by
  cases hcounts with
  | contains | insert | invalidate | count => rfl
  | clear => cases hclears
  | _ => cases hasks

end Event

section Observing

variable [PlanTable T V]

/-- Makes a call and observes what it does. -/
def observe (operation : Operation Node V σ) : CachingOn T σ (Event V σ) := fun cached =>
  let (answer, later) := (answer operation.recording).run
    ⟨cached.cache, cached.journal, (cached.own, [])⟩
  (⟨operation, answer, later.own.2⟩, ⟨later.cache, later.journal, later.own.1⟩)

/-- Makes calls.  Before each of them the table may change of itself. -/
def observeAll (steps : List ((T → T) × Operation Node V σ)) :
    CachingOn T σ (List (Event V σ)) :=
  steps.mapM fun (drop, operation) => do
    modifyCache fun cache => { cache with table := drop cache.table }
    observe operation

/-- A call that is observed does what it does unobserved, and counts as it is seen to. -/
def IsObserved (operation : Operation Node V σ) (cached : PlanCacheOn.Session T σ) : Prop :=
  ∃ endings change,
    (observe operation).run cached =
      (⟨operation, ((answer operation).run cached).1, endings⟩,
        ((answer operation).run cached).2) ∧
    Event.Counts ⟨operation, ((answer operation).run cached).1, endings⟩ change ∧
    ((answer operation).run cached).2.cache.stats = change cached.cache.stats

theorem IsObserved.of_eq {operation : Operation Node V σ} {cached later : PlanCacheOn.Session T σ}
    {value : Answer V} {endings : List Ending} {change : Statistics → Statistics}
    (hrun : (answer operation).run cached = (value, later))
    (hrecording : (answer operation.recording).run
        ⟨cached.cache, cached.journal, (cached.own, [])⟩ =
      (value, ⟨later.cache, later.journal, (later.own, endings)⟩))
    (hcounts : Event.Counts ⟨operation, value, endings⟩ change)
    (hstats : later.cache.stats = change cached.cache.stats) : IsObserved operation cached := by
  have hobserved : (observe operation).run cached = (⟨operation, value, endings⟩, later) := by
    change observe operation cached = _
    unfold observe
    rw [hrecording]
  unfold IsObserved
  rw [hrun]
  exact ⟨endings, change, hobserved, hcounts, hstats⟩

theorem isObserved (operation : Operation Node V σ) (cached : PlanCacheOn.Session T σ) :
    IsObserved operation cached := by
  cases operation with
  | clear => exact .of_eq rfl rfl .clear rfl
  | count => exact .of_eq rfl rfl (.count _) rfl
  | on key request =>
      cases request with
      | contains => exact .of_eq rfl rfl (.contains key _) rfl
      | insert value => exact .of_eq rfl rfl (.insert key value) rfl
      | invalidate => exact .of_eq rfl rfl (.invalidate key) rfl
      | get =>
          cases hfind : cached.cache.find? key with
          | some value =>
              exact .of_eq (answer_get_of_some hfind) (answer_get_of_some hfind)
                (.found key value) rfl
          | none =>
              exact .of_eq (answer_get_of_none hfind) (answer_get_of_none hfind)
                (.missed key) rfl
      | getOrCompute compute =>
          cases hfind : cached.cache.find? key with
          | some value =>
              exact .of_eq (answer_getOrCompute_of_some hfind)
                (answer_getOrCompute_of_some hfind) (.served key compute value) rfl
          | none =>
              exact .of_eq (answer_getOrCompute_of_none hfind)
                (answer_getOrCompute_of_none hfind) (.computed key compute _) rfl
      | tryGetOrCompute compute =>
          cases hfind : cached.cache.find? key with
          | some value =>
              exact .of_eq (answer_tryGetOrCompute_of_some hfind)
                (answer_tryGetOrCompute_of_some hfind) (.tryServed key compute value) rfl
          | none =>
              cases hcompute : compute cached.own with
              | mk result own =>
                  have hrecording : recordingEnding Ending.of compute (cached.own, []) =
                      (result, (own, [.of result])) := by
                    simp [recordingEnding, hcompute]
                  cases result with
                  | ok value =>
                      exact .of_eq (answer_tryGetOrCompute_of_ok hfind hcompute)
                        (answer_tryGetOrCompute_of_ok hfind hrecording)
                        (.tryComputed key compute value) rfl
                  | error reason =>
                      exact .of_eq (answer_tryGetOrCompute_of_error hfind hcompute)
                        (answer_tryGetOrCompute_of_error hfind hrecording)
                        (.tryFailed key compute _) rfl

end Observing

/-! ## The balance -/

/-- The calls since the statistics were last set to zero. -/
def sinceClear (events : List (Event V σ)) : List (Event V σ) :=
  events.rtakeWhile fun event => !event.operation.clears

/-- The statistics are what some calls come to. -/
structure Balances (events : List (Event V σ)) (stats : Statistics) : Prop where
  hits : stats.hits = events.countP Event.found + events.countP Event.served
  misses : stats.misses = events.countP Event.missed + stats.computations + stats.failures
  computations : stats.computations = (events.flatMap Event.endings).count .succeeded
  failures : stats.failures = (events.flatMap Event.endings).count .failed
  total : stats.total = events.countP Event.asks

theorem balances_nil : Balances ([] : List (Event V σ)) .zero :=
  ⟨rfl, rfl, rfl, rfl, rfl⟩

variable {events : List (Event V σ)} {event : Event V σ} {stats : Statistics}
  {change : Statistics → Statistics}

theorem Balances.concat (hbalances : Balances events stats) (hcounts : event.Counts change)
    (hkept : event.operation.clears = false) : Balances (events ++ [event]) (change stats) := by
  obtain ⟨hhits, hmisses, hcomputations, hfailures, htotal⟩ := hbalances
  unfold Statistics.total at htotal
  cases hcounts with
  | clear => cases hkept
  | _ =>
      constructor <;>
        simp [Statistics.total, hit, miss, Event.found, Event.missed, Event.served, Event.asks,
          Operation.asks] <;> omega

/-- One more call keeps the balance. -/
theorem Balances.sinceClear_concat (hbalances : Balances (sinceClear events) stats)
    (hcounts : event.Counts change) : Balances (sinceClear (events ++ [event])) (change stats) := by
  unfold sinceClear at hbalances ⊢
  rw [List.rtakeWhile_concat]
  by_cases hclears : event.operation.clears = true
  · rw [if_neg (by simp [hclears])]
    cases hcounts with
    | clear => exact balances_nil
    | _ => cases hclears
  · rw [if_pos (by simpa using hclears)]
    exact hbalances.concat hcounts (by simpa using hclears)

variable [PlanTable T V]

theorem run_observeAll_cons (drop : T → T) (operation : Operation Node V σ)
    (rest : List ((T → T) × Operation Node V σ)) (cached : PlanCacheOn.Session T σ) :
    ∃ dropped : PlanCacheOn.Session T σ, dropped.cache.stats = cached.cache.stats ∧
      (observeAll ((drop, operation) :: rest)).run cached =
        (((observe operation).run dropped).1 ::
            ((observeAll rest).run ((observe operation).run dropped).2).1,
          ((observeAll rest).run ((observe operation).run dropped).2).2) := by
  refine ⟨{ cached with cache := { cached.cache with table := drop cached.cache.table } },
    rfl, ?_⟩
  simp only [observeAll, List.mapM_cons, StateT.run_bind]
  rfl

/-- Calls keep the balance, one after the other. -/
theorem Balances.observeAll {cached : PlanCacheOn.Session T σ}
    (hbalances : Balances (sinceClear events) cached.cache.stats)
    (steps : List ((T → T) × Operation Node V σ)) :
    Balances (sinceClear (events ++ ((observeAll steps).run cached).1))
      ((observeAll steps).run cached).2.cache.stats := by
  induction steps generalizing events cached with
  | nil =>
      change Balances (sinceClear (events ++ [])) cached.cache.stats
      rwa [List.append_nil]
  | cons step rest ih =>
      obtain ⟨drop, operation⟩ := step
      obtain ⟨dropped, hstats, hrun⟩ := run_observeAll_cons drop operation rest cached
      obtain ⟨endings, change, hobserved, hcounts, hchange⟩ := isObserved operation dropped
      rw [← hstats] at hbalances
      have hnext := hbalances.sinceClear_concat hcounts
      rw [← hchange] at hnext
      have hrest := ih hnext
      rw [hrun, hobserved]
      simpa using hrest

end Caching

open Caching

/-- The statistics of a cache balance, whatever was asked of it and whatever its table dropped.
Since it was created or last cleared, the hits are the look-ups that answered a value and the
calls with a computation that answered one without running it; the misses are the look-ups that
answered nothing and the computations that ran; these are counted as they ended; and in all it
counts the calls that asked for a value.  The other calls change no counter.  To observe a call
does not change what it answers or leaves behind. -/
theorem statistics_balance {T V σ : Type} [PlanTable T V] {settings : CacheSettings}
    {cache : PlanCacheOn T} (hcreate : PlanCacheOn.create settings = .ok cache)
    (journal : Journal) (own : σ) (steps : List ((T → T) × Operation Node V σ)) :
    Balances (sinceClear ((observeAll steps).run ⟨cache, journal, own⟩).1)
        ((observeAll steps).run ⟨cache, journal, own⟩).2.cache.stats ∧
      ∀ (operation : Operation Node V σ) (cached : PlanCacheOn.Session T σ),
        (operation.asks = false → operation.clears = false →
          ((Caching.answer operation).run cached).2.cache.stats = cached.cache.stats) ∧
        ((observe operation).run cached).1.answer = ((Caching.answer operation).run cached).1 ∧
        ((observe operation).run cached).2 = ((Caching.answer operation).run cached).2 := by
  rw [PlanCacheOn.create_eq_ok hcreate]
  let start : PlanCacheOn.Session T σ := ⟨⟨settings, PlanTable.build settings, .zero⟩, journal, own⟩
  have hbalances : Balances (sinceClear ([] : List (Event V σ))) start.cache.stats := balances_nil
  refine ⟨hbalances.observeAll steps, ?_⟩
  intro operation cached
  obtain ⟨endings, change, hobserved, hcounts, hchange⟩ := isObserved operation cached
  rw [hobserved, hchange]
  refine ⟨?_, rfl, rfl⟩
  intro hasks hclears
  rw [hcounts.eq_id hasks hclears, id]

end

open Caching
open scoped Hints

/-- A computation that fails, again after the cache was cleared, and is replaced by one that
succeeds.  Its value is found twice, and then it is dropped. -/
theorem statistics_balance_retried :
    ∃ (cache : PlanCache Nat) (key : Node)
      (steps : List ((PlanEntries Nat → PlanEntries Nat) × Operation Node Nat Nat)),
      PlanCache.create .default = .ok cache ∧ steps.length = 8 ∧
      let run := (observeAll steps).run ⟨cache, [], 0⟩
      let counted := sinceClear run.1
      Balances counted run.2.cache.stats ∧
      ((Caching.answer (.on key .contains)).run run.2).2.cache.stats = run.2.cache.stats ∧
      run.2.cache.stats = ⟨2, 3, 1, 1⟩ ∧ run.2.own = 3 ∧ counted.length = 6 ∧
      counted.flatMap Event.endings = [.failed, .succeeded] ∧
      counted.countP Event.found = 1 ∧ counted.countP Event.served = 1 ∧
      counted.countP Event.missed = 1 ∧ counted.countP Event.asks = 5 := by
  let cache : PlanCache Nat := ⟨.default, [], .zero⟩
  let key := (Label.table "t" none none).node 0 .empty []
  let keep : PlanEntries Nat → PlanEntries Nat := id
  let drop : PlanEntries Nat → PlanEntries Nat := fun _ => []
  let fail : StateM Nat (Except String Nat) := fun calls => (.error "no plan", calls + 1)
  let compute : StateM Nat (Except String Nat) := fun calls => (.ok 7, calls + 1)
  let other : StateM Nat Nat := fun calls => (8, calls + 1)
  let steps : List ((PlanEntries Nat → PlanEntries Nat) × Operation Node Nat Nat) :=
    [(keep, .on key (.tryGetOrCompute fail)), (keep, .clear),
      (keep, .on key (.tryGetOrCompute fail)), (keep, .on key (.tryGetOrCompute compute)),
      (keep, .on key .get), (keep, .on key (.getOrCompute other)),
      (keep, .on key .contains), (drop, .on key .get)]
  have hcreate : PlanCacheOn.create .default = .ok cache := rfl
  obtain ⟨hbalances, hrest⟩ := statistics_balance hcreate [] 0 steps
  obtain ⟨hquiet, -, -⟩ := hrest (.on key .contains) ((observeAll steps).run ⟨cache, [], 0⟩).2
  exact ⟨cache, key, steps, rfl, rfl, hbalances, hquiet rfl rfl, by decide +kernel⟩

end QueryPlan
