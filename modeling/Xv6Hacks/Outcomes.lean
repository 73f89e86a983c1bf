import Mathlib.Data.List.Basic

/-!
# Outcomes of fallible computations

A computation in `Except` returns a value or stops for a reason. `Yields x post stops`
says what is known in both cases, and the rules below follow the shape of a program:
sequence, choice and loop. A computation that cannot stop is one whose reasons are
excluded, so the same statement serves for safety and for success.
-/

namespace Xv6Hacks.Outcomes

variable {ε α β : Type}

def Yields (x : Except ε α) (post : α → Prop) (stops : ε → Prop) : Prop :=
  match x with
  | .ok value => post value
  | .error reason => stops reason

variable {x : Except ε α} {post : α → Prop} {stops : ε → Prop}

theorem ok_bind (value : α) (f : α → Except ε β) : (Except.ok value >>= f) = f value := rfl

theorem Yields.mono {weaker : α → Prop} {more : ε → Prop} (yields : Yields x post stops)
    (values : ∀ value, post value → weaker value) (reasons : ∀ reason, stops reason → more reason) :
    Yields x weaker more := by
  cases x with
  | ok value => exact values value yields
  | error reason => exact reasons reason yields

theorem Yields.bind {f : α → Except ε β} {final : β → Prop} (first : Yields x post stops)
    (rest : ∀ value, post value → Yields (f value) final stops) : Yields (x >>= f) final stops := by
  cases x with
  | ok value => exact rest value first
  | error reason => exact first

theorem Yields.seq {f : α → Except ε β} {final : β → Prop} {more : ε → Prop}
    (first : Yields x post stops) (reasons : ∀ reason, stops reason → more reason)
    (rest : ∀ value, post value → Yields (f value) final more) : Yields (x >>= f) final more :=
  (first.mono (fun _ holds => holds) reasons).bind rest

section
variable (yields : Yields x post stops)
include yields

theorem Yields.of_ok {value : α} (returned : x = .ok value) : post value := by
  rw [returned] at yields
  exact yields

theorem Yields.of_error {reason : ε} (stopped : x = .error reason) : stops reason := by
  rw [stopped] at yields
  exact yields

theorem Yields.returns (never : ∀ reason, ¬ stops reason) :
    ∃ value, x = .ok value ∧ post value := by
  cases x with
  | ok value => exact ⟨value, rfl, yields⟩
  | error reason => exact absurd yields (never reason)

theorem Yields.and {other : α → Prop} (also : ∀ value, x = .ok value → other value) :
    Yields x (fun value => post value ∧ other value) stops := by
  cases x with
  | ok value => exact ⟨yields, also value rfl⟩
  | error reason => exact yields

end

/-- The loop rule: the invariant speaks of the items still to come. -/
theorem Yields.fold {Item : Type} {f : α → Item → Except ε α} {final : α → Prop}
    (invariant : List Item → α → Prop) (items : List Item) {state : α}
    (start : invariant items state) (step : ∀ item rest before, invariant (item :: rest) before →
    Yields (f before item) (invariant rest) stops)
    (finish : ∀ after, invariant [] after → final after) :
    Yields (items.foldlM f state) final stops := by
  induction items generalizing state with
  | nil => exact finish state start
  | cons item rest ih =>
    rw [List.foldlM_cons]
    exact (step item rest state start).bind fun after kept => ih kept

end Xv6Hacks.Outcomes
