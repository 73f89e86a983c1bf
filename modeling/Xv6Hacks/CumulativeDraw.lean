import Mathlib.Algebra.BigOperators.Group.List.Basic
import Mathlib.Tactic

/-!
# Drawing from a weighted list

The linear draw of a lottery: walk the list, add up the weights, and stop at the
first item whose running total exceeds the drawn number. An item wins exactly
the numbers in a window as long as its weight that starts at the sum of the
weights before it.
-/

namespace Xv6Hacks.CumulativeDraw

variable {Item : Type*}

def draw (weight : Item → Nat) (random : Nat) : List Item → Nat → Option Item
  | [], _ => none
  | item :: rest, runningTotal =>
    if random < runningTotal + weight item then some item
    else draw weight random rest (runningTotal + weight item)

section
variable (weight : Item → Nat)
include weight

theorem draw_mem (random : Nat) (items : List Item) (runningTotal : Nat) (item : Item)
    (won : draw weight random items runningTotal = some item) : item ∈ items := by
  induction items generalizing runningTotal with
  | nil => simp [draw] at won
  | cons head rest ih =>
    simp only [draw] at won
    split_ifs at won with window
    · cases won
      exact .head _
    · exact .tail head (ih _ won)

theorem draw_append (random : Nat) (before after : List Item) (runningTotal : Nat) :
    draw weight random (before ++ after) runningTotal = (draw weight random before runningTotal).or
    (draw weight random after (runningTotal + (before.map weight).sum)) := by
  induction before generalizing runningTotal with
  | nil => rfl
  | cons head rest ih =>
    simp only [List.cons_append, draw, List.map_cons, List.sum_cons, ← Nat.add_assoc]
    split
    · rfl
    · exact ih _

theorem draw_eq_none_iff {random : Nat} (items : List Item) {runningTotal : Nat}
    (reached : runningTotal ≤ random) : draw weight random items runningTotal = none ↔
    runningTotal + (items.map weight).sum ≤ random := by
  induction items generalizing runningTotal with
  | nil => simpa [draw] using reached
  | cons head rest ih =>
    simp only [draw, List.map_cons, List.sum_cons, ← Nat.add_assoc]
    split
    next window =>
      simp only [reduceCtorEq, false_iff]
      omega
    next passed => exact ih (by omega)

theorem draw_window (random : Nat) (before after : List Item) (item : Item) (runningTotal : Nat)
    (lower : runningTotal + (before.map weight).sum ≤ random)
    (upper : random < runningTotal + (before.map weight).sum + weight item) :
    draw weight random (before ++ item :: after) runningTotal = some item := by
  have passed := (draw_eq_none_iff weight before (by omega)).mpr lower
  rw [draw_append, passed, Option.none_or, draw, if_pos upper]

theorem draw_eq_some_iff (random : Nat) (before after : List Item) (item : Item)
    (once : (before ++ item :: after).Nodup) :
    draw weight random (before ++ item :: after) 0 = some item ↔
    (before.map weight).sum ≤ random ∧ random < (before.map weight).sum + weight item := by
  have apart : item ∉ before ++ after := (List.nodup_middle.mp once).notMem
  rw [List.mem_append, not_or] at apart
  constructor
  · intro won
    by_cases lower : (before.map weight).sum ≤ random
    · refine ⟨lower, Nat.lt_of_not_le fun upper => ?_⟩
      have passed := (draw_eq_none_iff weight before random.zero_le).mpr (by omega)
      rw [draw_append, passed, Option.none_or, draw, if_neg (by omega)] at won
      exact apart.2 (draw_mem _ _ _ _ _ won)
    · have early : draw weight random before 0 ≠ none := fun passed =>
        lower (by simpa using (draw_eq_none_iff weight before random.zero_le).mp passed)
      obtain ⟨winner, first⟩ := Option.ne_none_iff_exists'.mp early
      rw [draw_append, first, Option.some_or] at won
      exact absurd (draw_mem _ _ _ _ _ (first.trans won)) apart.1
  · intro window
    exact draw_window weight random before after item 0 (by omega) (by omega)

end

theorem filtered_sum_le (weight bound : Item → Nat) (selected : Item → Bool) (items : List Item)
    (covered : ∀ item, selected item = true → weight item ≤ bound item) :
    ((items.filter selected).map weight).sum ≤ (items.map bound).sum := by
  induction items with
  | nil => simp
  | cons head rest ih =>
    simp only [List.map_cons, List.sum_cons]
    by_cases chosen : selected head = true
    · have here := covered head chosen
      simp only [List.filter_cons, chosen, if_true, List.map_cons, List.sum_cons]
      omega
    · simp only [List.filter_cons, chosen]
      exact ih.trans (Nat.le_add_left _ _)

end Xv6Hacks.CumulativeDraw
