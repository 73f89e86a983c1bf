import Mathlib.Data.Finset.Card

/-!
# Computations that leave a trace

A computation in `Except` with the events that happened up to its end, also when it stops.
The events of a sequence are those of its parts in order, and what it returns does not
depend on them: `outcome_bind` erases the trace.
-/

namespace Xv6Hacks.Traces

structure Traced (Event ε α : Type) where
  outcome : Except ε α
  trace : List Event

namespace Traced

variable {Event ε α β : Type}

def lift (x : Except ε α) : Traced Event ε α := ⟨x, []⟩

def emit (event : Event) (value : α) : Traced Event ε α := ⟨.ok value, [event]⟩

def bind (x : Traced Event ε α) (f : α → Traced Event ε β) : Traced Event ε β :=
  match x.outcome with
  | .ok value => ⟨(f value).outcome, x.trace ++ (f value).trace⟩
  | .error reason => ⟨.error reason, x.trace⟩

instance : Monad (Traced Event ε) where
  pure value := ⟨.ok value, []⟩
  bind := Traced.bind

@[simp] theorem outcome_pure (value : α) :
    (pure value : Traced Event ε α).outcome = .ok value := rfl

@[simp] theorem trace_pure (value : α) : (pure value : Traced Event ε α).trace = [] := rfl

@[simp] theorem outcome_lift (x : Except ε α) : (lift x : Traced Event ε α).outcome = x := rfl

@[simp] theorem trace_lift (x : Except ε α) : (lift x : Traced Event ε α).trace = [] := rfl

@[simp] theorem outcome_emit (event : Event) (value : α) :
    (emit event value : Traced Event ε α).outcome = .ok value := rfl

@[simp] theorem trace_emit (event : Event) (value : α) :
    (emit event value : Traced Event ε α).trace = [event] := rfl

variable (x : Traced Event ε α) (f : α → Traced Event ε β)

@[simp] theorem lift_ok_bind (value : α) : lift (.ok value) >>= f = f value := rfl

@[simp] theorem emit_bind (event : Event) (value : α) :
    emit event value >>= f = ⟨(f value).outcome, event :: (f value).trace⟩ := rfl

@[simp] theorem outcome_bind : (x >>= f).outcome = x.outcome >>= fun value => (f value).outcome := by
  show (x.bind f).outcome = _
  rw [Traced.bind]
  cases x.outcome with
  | ok value => rfl
  | error reason => rfl

variable {x}

theorem trace_bind_ok {value : α} (returned : x.outcome = .ok value) :
    (x >>= f).trace = x.trace ++ (f value).trace := by
  show (x.bind f).trace = _
  rw [Traced.bind, returned]

theorem trace_bind_error {reason : ε} (stopped : x.outcome = .error reason) :
    (x >>= f).trace = x.trace := by
  show (x.bind f).trace = _
  rw [Traced.bind, stopped]

theorem trace_subset_bind : x.trace ⊆ (x >>= f).trace := by
  cases returned : x.outcome with
  | ok value =>
    rw [trace_bind_ok f returned]
    exact List.subset_append_left _ _
  | error reason => rw [trace_bind_error f returned]; exact fun _ member => member

theorem trace_bind_silent (silent : ∀ value, (f value).trace = []) : (x >>= f).trace = x.trace := by
  cases returned : x.outcome with
  | ok value => rw [trace_bind_ok f returned, silent, List.append_nil]
  | error reason => exact trace_bind_error f returned

theorem trace_bind_length (first rest : Nat) (head : x.trace.length ≤ first)
    (tail : ∀ value, x.outcome = .ok value → (f value).trace.length ≤ rest) :
    (x >>= f).trace.length ≤ first + rest := by
  cases returned : x.outcome with
  | ok value =>
    rw [trace_bind_ok f returned, List.length_append]
    exact Nat.add_le_add head (tail value returned)
  | error reason =>
    rw [trace_bind_error f returned]
    omega

theorem trace_bind_card [DecidableEq Event] (rest : Nat)
    (tail : ∀ value, (f value).trace.length ≤ rest) :
    (x >>= f).trace.toFinset.card ≤ x.trace.toFinset.card + rest := by
  cases returned : x.outcome with
  | ok value =>
    rw [trace_bind_ok f returned, List.toFinset_append]
    refine (Finset.card_union_le _ _).trans (Nat.add_le_add_left ?_ _)
    exact (List.toFinset_card_le _).trans (tail value)
  | error reason =>
    rw [trace_bind_error f returned]
    exact Nat.le_add_right _ _

end Traced
end Xv6Hacks.Traces
