import Mathlib.Logic.Function.Basic
import Xv6Hacks.GuardedRuns
import Xv6Hacks.Outcomes

/-!
# Programs over a shared state

A program is a sequence of operations on a state; the answer of each operation decides how
the program goes on. What a program yields follows from what its operations yield.
-/

namespace Xv6Hacks.Programs

open Outcomes

variable {Op : Type} {Answer : Op → Type} {α β : Type}

inductive Program (Op : Type) (Answer : Op → Type) (α : Type) where
  | done (value : α)
  | act (op : Op) (next : Answer op → Program Op Answer α)

namespace Program

def bind : Program Op Answer α → (α → Program Op Answer β) → Program Op Answer β
  | .done value, f => f value
  | .act op next, f => .act op fun answer => (next answer).bind f

instance : Monad (Program Op Answer) where
  pure := .done
  bind := bind

end Program

def perform (op : Op) : Program Op Answer (Answer op) := .act op .done

section Running
variable {State Stop : Type}

/-- What an operation does to the shared state: an answer and the next state, or a
reason for which the system stops. -/
abbrev Handler (Op : Type) (Answer : Op → Type) (State Stop : Type) :=
  (op : Op) → State → Except Stop (Answer op × State)

variable (handle : Handler Op Answer State Stop)

def Program.run : Program Op Answer α → State → Except Stop (α × State)
  | .done value, state => .ok (value, state)
  | .act op next, state => do
    let (answer, after) ← handle op state
    (next answer).run after

theorem run_bind (first : Program Op Answer α) (rest : α → Program Op Answer β) (state : State) :
    (first >>= rest).run handle state =
    first.run handle state >>= fun result => (rest result.1).run handle result.2 := by
  induction first generalizing state with
  | done value => rfl
  | act op next ih =>
    change (handle op state >>= fun result =>
      ((next result.1) >>= rest).run handle result.2) =
        (handle op state >>= fun result => (next result.1).run handle result.2) >>= _
    cases handle op state with
    | error reason => rfl
    | ok result => exact ih result.1 result.2

theorem run_perform (op : Op) (state : State) :
    (perform op).run handle state = handle op state := by
  change (handle op state >>= fun result => Except.ok (result.1, result.2)) = _
  cases handle op state <;> rfl

variable {handle} {stops : Stop → Prop} {first : Program Op Answer α}
  {rest : α → Program Op Answer β} {state : State} {middle : α × State → Prop}
  {post : β × State → Prop}

theorem yields_run_bind (begins : Yields (first.run handle state) middle stops)
    (goes : ∀ value after, middle (value, after) →
    Yields ((rest value).run handle after) post stops) :
    Yields ((first >>= rest).run handle state) post stops := by
  rw [run_bind]
  exact begins.bind fun result holds => goes result.1 result.2 holds

theorem yields_run_seq {fewer : Stop → Prop} (begins : Yields (first.run handle state) middle fewer)
    (reasons : ∀ reason, fewer reason → stops reason) (goes : ∀ value after, middle (value, after) →
    Yields ((rest value).run handle after) post stops) :
    Yields ((first >>= rest).run handle state) post stops :=
  yields_run_bind (begins.mono (fun _ holds => holds) reasons) goes

theorem yields_run_then (begins : Yields (first.run handle state) middle fun _ => False)
    (goes : ∀ value after, middle (value, after) →
    Yields ((rest value).run handle after) post stops) :
    Yields ((first >>= rest).run handle state) post stops :=
  yields_run_seq begins (fun _ never => never.elim) goes

end Running
end Xv6Hacks.Programs
