import Mathlib.Data.List.Chain
import Mathlib.Data.List.Nodup
import Mathlib.Logic.Function.Basic
import Mathlib.Tactic

/-!
# Circular singly linked lists without a fixed head

`Closed next nodes` says that the links lead through `nodes` and back to the first one, so
that it does not matter where the list is entered. `seek` is a loop around it that stops
at a node. Nothing here mentions a particular system.
-/

namespace Xv6Hacks.CircularWalks

open Function

variable {α : Type}

abbrev Walk (next : α → α) (nodes : List α) : Prop :=
  nodes.IsChain fun before after => next before = after

def Closed (next : α → α) : List α → Prop
  | [] => True
  | first :: rest => Walk next (first :: (rest ++ [first]))

theorem walk_frame {next after : α → α} {nodes : List α} (walk : Walk next nodes)
    (same : ∀ node ∈ nodes.dropLast, after node = next node) : Walk after nodes := by
  induction nodes with
  | nil => exact List.isChain_nil
  | cons first rest ih =>
    cases rest with
    | nil => exact List.isChain_singleton first
    | cons second rest =>
      obtain ⟨leads, tail⟩ := List.isChain_cons_cons.mp walk
      rw [List.dropLast_cons_cons] at same
      refine List.isChain_cons_cons.mpr ⟨?_, ih tail ?_⟩
      · rw [same first (.head _)]
        exact leads
      · intro node member
        exact same node (.tail first member)

variable {next : α → α}

theorem Closed.rotate {left right : List α} (closed : Closed next (left ++ right)) :
    Closed next (right ++ left) := by
  cases left with
  | nil =>
    rw [List.append_nil]
    exact closed
  | cons a left =>
    cases right with
    | nil =>
      rw [List.append_nil] at closed
      exact closed
    | cons b right =>
      have shape : a :: (left ++ b :: right ++ [a]) = (a :: left) ++ b :: (right ++ [a]) := by
        simp
      have walk : Walk next (a :: (left ++ b :: right ++ [a])) := closed
      rw [shape] at walk
      obtain ⟨first, second⟩ := List.isChain_split.mp walk
      have goal : b :: (right ++ a :: left ++ [b]) = (b :: right) ++ a :: (left ++ [b]) := by
        simp
      change Walk next (b :: (right ++ a :: left ++ [b]))
      rw [goal]
      exact List.isChain_split.mpr ⟨second, first⟩

theorem walk_redirect [DecidableEq α] {start node : α} {rest : List α}
    (walk : Walk next (start :: rest)) (fresh : node ∉ rest.dropLast) :
    Walk (update next node (next start)) (node :: rest) := by
  cases rest with
  | nil => exact List.isChain_singleton node
  | cons second rest =>
    obtain ⟨leads, tail⟩ := List.isChain_cons_cons.mp walk
    refine List.isChain_cons_cons.mpr ⟨?_, walk_frame tail ?_⟩
    · rw [update_self]
      exact leads
    · intro other member
      apply update_of_ne
      intro same
      exact fresh (same ▸ member)

theorem walk_into [DecidableEq α] {first node : α} {rest : List α}
    (walk : Walk next (first :: rest)) (fresh : node ∉ (first :: rest).dropLast) :
    Walk (update next node first) (node :: first :: rest) := by
  refine List.isChain_cons_cons.mpr ⟨update_self .., walk_frame walk ?_⟩
  intro other member
  apply update_of_ne
  intro same
  exact fresh (same ▸ member)

/-- `for(p = start; !stop(p); p = next(p)) ;`, or `none` after `fuel` rounds. -/
def seek (next : α → α) (stop : α → Bool) : Nat → α → Option α
  | 0, _ => none
  | fuel + 1, node => if stop node then some node else seek next stop fuel (next node)

theorem seek_finds {stop : α → Bool} {nodes : List α} {start behind target : α}
    (walk : Walk next (start :: (nodes ++ [behind]))) (member : target ∈ start :: nodes)
    (stops : stop target = true) (only : ∀ node ∈ start :: nodes, stop node = true → node = target)
    {fuel : Nat} (enough : nodes.length < fuel) : seek next stop fuel start = some target := by
  induction nodes generalizing start fuel with
  | nil =>
    obtain ⟨less, rfl⟩ : ∃ less, fuel = less + 1 := ⟨fuel - 1, by omega⟩
    have here := List.mem_singleton.mp member
    rw [here] at stops
    rw [seek, if_pos stops, here]
  | cons node nodes ih =>
    obtain ⟨less, rfl⟩ : ∃ less, fuel = less + 1 := ⟨fuel - 1, by omega⟩
    rw [seek]
    by_cases now : stop start = true
    · rw [if_pos now, only start (.head _) now]
    · have later : target ∈ node :: nodes := by
        rcases List.mem_cons.mp member with here | later
        · rw [here] at stops
          exact absurd stops now
        · exact later
      obtain ⟨leads, tail⟩ := List.isChain_cons_cons.mp walk
      rw [if_neg now, leads]
      apply ih tail later
      · intro other inRest
        exact only other (.tail start inRest)
      · rw [List.length_cons] at enough
        omega

end Xv6Hacks.CircularWalks
