import Mathlib.Tactic

/-!
# Sequences of writes to a store

A store maps addresses to contents, and a write replaces the content of one
address. A crash keeps a prefix of the writes. The lemmas say what a prefix of
an indexed family of writes leaves at every address.
-/

namespace Xv6Hacks.WriteSequences

open Function

variable {Content : Type*}

abbrev Store (Content : Type*) := Nat → Content

def applyWrites : List (Nat × Content) → Store Content → Store Content
  | [], store => store
  | (address, content) :: rest, store =>
    applyWrites rest (update store address content)

theorem apply_writes_append (first second : List (Nat × Content)) (store : Store Content) :
    applyWrites (first ++ second) store = applyWrites second (applyWrites first store) := by
  induction first generalizing store with
  | nil => rfl
  | cons write rest ih =>
    simp only [List.cons_append, applyWrites]
    exact ih _

theorem apply_writes_untouched (writes : List (Nat × Content)) (store : Store Content)
    (address : Nat) (untouched : ∀ write ∈ writes, write.1 ≠ address) :
    applyWrites writes store address = store address := by
  induction writes generalizing store with
  | nil => rfl
  | cons write rest ih =>
    have head := untouched write (.head _)
    simp only [applyWrites]
    rw [ih _ fun later member => untouched later (.tail write member)]
    exact update_of_ne head.symm _ _

theorem apply_writes_covered (writes : List (Nat × Content)) (left right : Store Content)
    (address : Nat) (covered : left address = right address ∨ ∃ write ∈ writes, write.1 = address) :
    applyWrites writes left address = applyWrites writes right address := by
  induction writes generalizing left right with
  | nil =>
    rcases covered with same | ⟨write, member, -⟩
    · exact same
    · exact absurd member List.not_mem_nil
  | cons write rest ih =>
    simp only [applyWrites]
    apply ih
    by_cases here : address = write.1
    · left
      rw [here, update_self, update_self]
    · rw [update_of_ne here, update_of_ne here]
      rcases covered with same | ⟨later, member, place⟩
      · exact .inl same
      · rcases List.mem_cons.mp member with rfl | member
        · exact absurd place.symm here
        · exact .inr ⟨later, member, place⟩

/-- The writes of a loop that stores `content i` at `target i` for `i` below `count`. -/
def loopWrites (target : Nat → Nat) (content : Nat → Content) (count : Nat) :
    List (Nat × Content) :=
  (List.range count).map fun index => (target index, content index)

theorem loop_writes_length (target : Nat → Nat) (content : Nat → Content) (count : Nat) :
    (loopWrites target content count).length = count := by
  simp [loopWrites]

theorem loop_writes_succ (target : Nat → Nat) (content : Nat → Content) (count : Nat) :
    loopWrites target content (count + 1) =
    loopWrites target content count ++ [(target count, content count)] := by
  simp [loopWrites, List.range_succ]

theorem loop_writes_congr (target other : Nat → Nat) (content replaced : Nat → Content)
    (count : Nat) (targets : ∀ index, index < count → target index = other index)
    (contents : ∀ index, index < count → content index = replaced index) :
    loopWrites target content count = loopWrites other replaced count := by
  apply List.map_congr_left
  intro index member
  have bound := List.mem_range.mp member
  rw [targets index bound, contents index bound]

section
variable (target : Nat → Nat) (content : Nat → Content)
include target content

theorem loop_writes_take (count kept : Nat) :
    (loopWrites target content count).take kept = loopWrites target content (min kept count) := by
  simp [loopWrites, ← List.map_take, List.take_range]

theorem loop_writes_untouched (count : Nat) (store : Store Content) (address : Nat)
    (untouched : ∀ index, index < count → target index ≠ address) :
    applyWrites (loopWrites target content count) store address = store address := by
  apply apply_writes_untouched
  intro write member
  simp only [loopWrites, List.mem_map, List.mem_range] at member
  obtain ⟨index, bound, rfl⟩ := member
  exact untouched index bound

theorem loop_writes_at (count : Nat)
    (store : Store Content) (distinct : ∀ left right, left < count → right < count →
    target left = target right → left = right) (index : Nat) (bound : index < count) :
    applyWrites (loopWrites target content count) store (target index) = content index := by
  induction count with
  | zero => omega
  | succ count ih =>
    rw [loop_writes_succ, apply_writes_append]
    simp only [applyWrites]
    by_cases last : index = count
    · subst last
      exact update_self _ _ _
    · have different : target index ≠ target count := fun same =>
        last (distinct index count bound (by omega) same)
      rw [update_of_ne different]
      exact ih (fun left right boundLeft boundRight =>
        distinct left right (by omega) (by omega)) (by omega)

end
end Xv6Hacks.WriteSequences
