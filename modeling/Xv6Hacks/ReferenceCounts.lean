import Mathlib.Algebra.BigOperators.Group.Finset.Basic
import Mathlib.Data.Finset.Card
import Mathlib.Tactic

/-!
# Counting references

Places of a finite set each refer to one object or to none. `refs` counts the places
that refer to an object; the lemmas say how the count moves when a single place
changes, and what a count of zero or one means. The last section counts the indexes
below a bound that meet a test.
-/

namespace Xv6Hacks.ReferenceCounts

variable {Place Object : Type} [DecidableEq Object]

def refs (places : Finset Place) (target : Place → Option Object) (object : Object) : Nat :=
  (places.filter fun place => target place = some object).card

def share (target : Option Object) (object : Object) : Nat :=
  if target = some object then 1 else 0

variable {places : Finset Place} {target after : Place → Option Object} {object : Object}

theorem refs_congr (same : ∀ place ∈ places, after place = target place) :
    refs places after object = refs places target object := by
  rw [refs, refs]
  apply congrArg
  apply Finset.filter_congr
  intro place member
  rw [same place member]

theorem refs_change [DecidableEq Place] {place : Place} (member : place ∈ places)
    (same : ∀ other ∈ places, other ≠ place → after other = target other) :
    refs places after object + share (target place) object =
    refs places target object + share (after place) object := by
  -- Both counts are that of the other places plus the share of `place`.
  have split (map : Place → Option Object) :
      refs places map object = refs (places.erase place) map object + share (map place) object := by
    rw [refs, refs, share, ← Finset.insert_erase member, Finset.filter_insert,
      Finset.erase_insert (Finset.notMem_erase place places)]
    split
    · rw [Finset.card_insert_of_notMem (by simp)]
    · rfl
  have others : refs (places.erase place) after object = refs (places.erase place) target object := by
    apply refs_congr
    intro other kept
    exact same other (Finset.mem_of_mem_erase kept) (Finset.ne_of_mem_erase kept)
  rw [split after, split target, others]
  omega

theorem refs_zero (none : ∀ place ∈ places, target place ≠ some object) :
    refs places target object = 0 := by
  rw [refs, Finset.card_eq_zero, Finset.filter_eq_empty_iff]
  intro place member
  exact none place member

theorem refs_pos {place : Place} (member : place ∈ places) (refers : target place = some object) :
    0 < refs places target object := by
  rw [refs, Finset.card_pos]
  exact ⟨place, Finset.mem_filter.mpr ⟨member, refers⟩⟩

theorem refs_unique (single : refs places target object ≤ 1) {left right : Place}
    (leftMember : left ∈ places) (rightMember : right ∈ places)
    (leftRefers : target left = some object) (rightRefers : target right = some object) :
    left = right := by
  rw [refs] at single
  exact Finset.card_le_one.mp single left (Finset.mem_filter.mpr ⟨leftMember, leftRefers⟩)
    right (Finset.mem_filter.mpr ⟨rightMember, rightRefers⟩)

theorem refs_single {place : Place} (member : place ∈ places) (refers : target place = some object)
    (only : ∀ other ∈ places, target other = some object → other = place) :
    refs places target object = 1 := by
  rw [refs, Finset.card_eq_one]
  refine ⟨place, Finset.ext fun other => ?_⟩
  rw [Finset.mem_filter, Finset.mem_singleton]
  constructor
  · exact fun here => only other here.1 here.2
  · rintro rfl
    exact ⟨member, refers⟩

theorem count_range_add {bound index : Nat} (below : index < bound) {before after : Nat → Bool}
    (unset : before index = false) (set : after index = true)
    (same : ∀ other, other < bound → other ≠ index → after other = before other) :
    (List.range bound).countP after = (List.range bound).countP before + 1 := by
  induction bound with
  | zero => omega
  | succ bound ih =>
    rw [List.range_succ, List.countP_append, List.countP_append, List.countP_singleton,
      List.countP_singleton]
    by_cases last : index = bound
    · subst last
      have others : (List.range index).countP after = (List.range index).countP before := by
        apply List.countP_congr
        intro other member
        rw [List.mem_range] at member
        rw [same other (by omega) (by omega)]
      rw [others, unset, set]
      rfl
    · rw [ih (by omega) fun other small => same other (by omega),
        same bound (by omega) (Ne.symm last)]
      omega

end Xv6Hacks.ReferenceCounts
