import Mathlib.Order.Defs.PartialOrder

/-!
# Runs of a partial step function

States reached by finitely many steps, every one of which meets a guard on the
state before it. The guard separates the runs a result is about from the rest;
the trivial guard gives plain reachability. The last section says when a sequence of
computations that may fail returns a result. Nothing here mentions a particular system.
-/

namespace Xv6Hacks.GuardedRuns

variable {State Action : Type*}

/-- `Reaches step guard start state`: some run from `start` ends in `state`, and
each of its steps was enabled and met `guard` in the state it was taken from. -/
inductive Reaches (step : State → Action → Option State)
    (guard : State → Action → Prop) (start : State) : State → Prop where
  | start : Reaches step guard start start
  | next {before after : State} (action : Action)
      (prior : Reaches step guard start before)
      (allowed : guard before action)
      (taken : step before action = some after) :
      Reaches step guard start after

variable {step : State → Action → Option State} {guard : State → Action → Prop}
  {start state : State}

/-- The invariant rule: what holds at the start and survives every guarded step
holds wherever a guarded run can get to. -/
theorem reaches_invariant (invariant : State → Prop) (initial : invariant start)
    (preserved : ∀ before action after, invariant before → guard before action →
    step before action = some after → invariant after)
    (reached : Reaches step guard start state) : invariant state := by
  induction reached with
  | start => exact initial
  | next action prior allowed taken ih =>
    exact preserved _ action _ ih allowed taken

def run (step : State → Action → Option State) : State → List Action → Option State
  | state, [] => some state
  | state, action :: rest => (step state action).bind fun next => run step next rest

theorem run_append (first second : List Action) (start : State) : run step start (first ++ second) =
    (run step start first).bind fun middle => run step middle second := by
  induction first generalizing start with
  | nil => rfl
  | cons action rest ih =>
    rw [List.cons_append, run, run, Option.bind_assoc]
    simp only [ih]

def AllGuarded (step : State → Action → Option State)
    (guard : State → Action → Prop) : State → List Action → Prop
  | _, [] => True
  | state, action :: rest =>
    guard state action ∧
      ∀ next, step state action = some next → AllGuarded step guard next rest

theorem Reaches.trans {middle : State} (first : Reaches step guard start middle)
    (second : Reaches step guard middle state) : Reaches step guard start state := by
  induction second with
  | start => exact first
  | next action prior allowed taken ih => exact Reaches.next action ih allowed taken

theorem reaches_of_run {actions : List Action} (guarded : AllGuarded step guard start actions)
    (ran : run step start actions = some state) : Reaches step guard start state := by
  induction actions generalizing start with
  | nil =>
    cases ran
    exact .start
  | cons action rest ih =>
    obtain ⟨next, taken, continued⟩ := Option.bind_eq_some_iff.mp ran
    have first : Reaches step guard start next := Reaches.next action Reaches.start guarded.1 taken
    exact first.trans (ih (guarded.2 next taken) continued)

theorem all_guarded_trivial (actions : List Action) (start : State) :
    AllGuarded step (fun _ _ => True) start actions := by
  induction actions generalizing start with
  | nil => trivial
  | cons action rest ih => exact ⟨trivial, fun next _ => ih next⟩

section Executable
variable (step) (start)

theorem exists_of_run (actions : List Action) (property : State → Bool)
    (holds : (run step start actions).any property = true) :
    ∃ state, run step start actions = some state ∧ property state = true := by
  cases ran : run step start actions with
  | none => simp [ran] at holds
  | some state => exact ⟨state, rfl, by simpa [ran] using holds⟩

theorem not_forall_reaches_of_run (actions : List Action) (property : State → Bool)
    (fails : (run step start actions).any (fun state => !property state) = true) :
    ¬ ∀ state, Reaches step (fun _ _ => True) start state → property state = true := by
  intro always
  obtain ⟨state, ran, failed⟩ := exists_of_run step start actions _ fails
  have reached := reaches_of_run (all_guarded_trivial actions start) ran
  simp [always state reached] at failed

end Executable

section Checked
variable (step) (start)

def runChecked (check : State → Action → Bool) : State → List Action → Option State
  | state, [] => some state
  | state, action :: rest =>
    if check state action then (step state action).bind fun next => runChecked check next rest
    else none

theorem reaches_of_run_checked (check : State → Action → Bool) {actions : List Action}
    (ran : runChecked step check start actions = some state) :
    Reaches step (fun before action => check before action = true) start state := by
  induction actions generalizing start with
  | nil =>
    cases ran
    exact .start
  | cons action rest ih =>
    rw [runChecked] at ran
    split at ran
    · rename_i allowed
      obtain ⟨next, taken, continued⟩ := Option.bind_eq_some_iff.mp ran
      exact (Reaches.next action Reaches.start allowed taken).trans (ih next continued)
    · contradiction

theorem exists_of_checked_run (guard : State → Action → Prop) [∀ s a, Decidable (guard s a)]
    (actions : List Action) (property : State → Bool)
    (holds : (runChecked step (fun s a => decide (guard s a)) start actions).any property = true) :
    ∃ state, Reaches step guard start state ∧ property state = true := by
  cases ran : runChecked step (fun s a => decide (guard s a)) start actions with
  | none => simp [ran] at holds
  | some state =>
    refine ⟨state, ?_, by simpa [ran] using holds⟩
    have checked := reaches_of_run_checked step start _ ran
    simp only [decide_eq_true_eq] at checked
    exact checked

end Checked

/-- From `x >>= f = ok r` to the result of `x`. -/
theorem bind_ok {ε α β : Type} {x : Except ε α} {f : α → Except ε β} {result : β} :
    (x >>= f) = .ok result ↔ ∃ value, x = .ok value ∧ f value = .ok result := by
  cases x with
  | error stop => simp [bind, Except.bind]
  | ok value => simp [bind, Except.bind]

theorem bind_error {ε α β : Type} {x : Except ε α} {f : α → Except ε β} {stop : ε} :
    (x >>= f) = .error stop ↔ x = .error stop ∨ ∃ value, x = .ok value ∧ f value = .error stop := by
  cases x with
  | error reason => simp [bind, Except.bind]
  | ok value => simp [bind, Except.bind]

theorem fold_idle {ε State Item : Type} (f : State → Item → Except ε State) (items : List Item)
    (state : State) (idle : ∀ item ∈ items, f state item = .ok state) :
    items.foldlM f state = .ok state := by
  induction items with
  | nil => rfl
  | cons item rest ih =>
    rw [List.foldlM_cons, idle item (.head _)]
    exact ih fun later member => idle later (.tail item member)

end Xv6Hacks.GuardedRuns
