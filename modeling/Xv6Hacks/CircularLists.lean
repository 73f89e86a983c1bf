import Mathlib.Data.List.Chain
import Mathlib.Data.List.Nodup
import Mathlib.Logic.Function.Basic
import Mathlib.Tactic

/-!
# Circular doubly linked lists through a head

Every node has a next and a previous node. `Ring links head items` says that the links
lead from the head through `items`, each once, and back to the head, in both directions.
Nothing here mentions a particular system.
-/

namespace Xv6Hacks.CircularLists

open Function

structure Links (α : Type) where
  next : α → α
  prev : α → α

variable {α : Type} {links : Links α} {head item : α} {items : List α}

def Adjacent (links : Links α) (before after : α) : Prop :=
  links.next before = after ∧ links.prev after = before

structure Ring (links : Links α) (head : α) (items : List α) : Prop where
  walk : (head :: (items ++ [head])).IsChain (Adjacent links)
  nodup : (head :: items).Nodup

theorem chain_frame {after : Links α} {walk : List α} (chain : walk.IsChain (Adjacent links))
    (next : ∀ node ∈ walk.dropLast, after.next node = links.next node)
    (prev : ∀ node ∈ walk.tail, after.prev node = links.prev node) :
    walk.IsChain (Adjacent after) := by
  induction walk with
  | nil => exact List.isChain_nil
  | cons first rest ih =>
    cases rest with
    | nil => exact List.isChain_singleton first
    | cons second rest =>
      obtain ⟨adjacent, tail⟩ := List.isChain_cons_cons.mp chain
      rw [List.dropLast_cons_cons] at next
      rw [List.tail_cons] at prev
      refine List.isChain_cons_cons.mpr ⟨⟨?_, ?_⟩, ih tail ?_ ?_⟩
      · rw [next first (.head _)]
        exact adjacent.1
      · rw [prev second (.head _)]
        exact adjacent.2
      · intro node member
        exact next node (.tail first member)
      · intro node member
        exact prev node (.tail second member)

section Splice
variable [DecidableEq α]

/-- `before->next = after` and `after->prev = before`. -/
def Links.join (links : Links α) (before after : α) : Links α where
  next := update links.next before after
  prev := update links.prev after before

theorem chain_join {before after : α} {left right : List α}
    (first : (left ++ [before]).IsChain (Adjacent links))
    (second : (after :: right).IsChain (Adjacent links))
    (leaves : before ∉ left ∧ before ∉ (after :: right).dropLast)
    (enters : after ∉ right ∧ after ∉ (left ++ [before]).tail) :
    (left ++ before :: after :: right).IsChain (Adjacent (links.join before after)) := by
  refine List.isChain_append_cons_cons.mpr ⟨?_, ?_, ?_⟩
  · apply chain_frame first
    · intro node member
      rw [List.dropLast_concat] at member
      apply update_of_ne
      intro same
      rw [same] at member
      exact leaves.1 member
    · intro node member
      apply update_of_ne
      intro same
      rw [same] at member
      exact enters.2 member
  · exact ⟨update_self _ _ _, update_self _ _ _⟩
  · apply chain_frame second
    · intro node member
      apply update_of_ne
      intro same
      rw [same] at member
      exact leaves.2 member
    · intro node member
      rw [List.tail_cons] at member
      apply update_of_ne
      intro same
      rw [same] at member
      exact enters.1 member

/-- Take `item` out: `item->next->prev = item->prev; item->prev->next = item->next`. -/
def Links.remove (links : Links α) (item : α) : Links α :=
  let first := { links with prev := update links.prev (links.next item) (links.prev item) }
  { first with next := update first.next (first.prev item) (first.next item) }

def Links.insertFront (links : Links α) (head item : α) : Links α :=
  let first : Links α := { next := update links.next item (links.next head)
                           prev := update links.prev item head }
  let second := { first with prev := update first.prev (first.next head) item }
  { second with next := update second.next head item }

theorem insert_front_eq (notHead : item ≠ head) (notNext : links.next head ≠ item) :
    links.insertFront head item = (links.join item (links.next head)).join head item := by
  unfold Links.insertFront Links.join
  dsimp only
  rw [update_of_ne notHead.symm, update_comm notNext.symm]

theorem remove_eq (notNext : links.next item ≠ item) :
    links.remove item = links.join (links.prev item) (links.next item) := by
  unfold Links.remove Links.join
  dsimp only
  rw [update_of_ne notNext.symm]

omit [DecidableEq α] in
theorem Ring.closed_nodup (ring : Ring links head items) : (items ++ [head]).Nodup := by
  obtain ⟨outside, nodup⟩ := List.nodup_cons.mp ring.nodup
  refine List.nodup_append.mpr ⟨nodup, List.nodup_singleton head, ?_⟩
  intro node member other isHead same
  rw [same, List.mem_singleton.mp isHead] at member
  exact outside member

theorem insert_front_ring (ring : Ring links head items) (outside : item ∉ head :: items) :
    Ring (links.insertFront head item) head (item :: items) := by
  obtain ⟨notHead, notItem⟩ := not_or.mp (fun either => outside (List.mem_cons.mpr either))
  obtain ⟨headOutside, -⟩ := List.nodup_cons.mp ring.nodup
  obtain ⟨second, rest, closed⟩ : ∃ second rest, items ++ [head] = second :: rest :=
    List.exists_cons_of_ne_nil (by simp)
  have walk := ring.walk
  have nodup := ring.closed_nodup
  rw [closed] at walk nodup
  obtain ⟨adjacent, tail⟩ := List.isChain_cons_cons.mp walk
  have notClosed : item ∉ second :: rest := by
    rw [← closed, List.mem_append, List.mem_singleton]
    exact not_or.mpr ⟨notItem, notHead⟩
  have notSecond : links.next head ≠ item := by
    rw [adjacent.1]
    intro same
    rw [same] at notClosed
    exact notClosed (.head _)
  rw [insert_front_eq notHead notSecond, adjacent.1]
  -- First the item is put in front of the walk, then the head in front of the item.
  have joined : (item :: second :: rest).IsChain (Adjacent (links.join item second)) := by
    apply @chain_join α links _ item second [] rest (List.isChain_singleton item) tail
    · refine ⟨List.not_mem_nil, ?_⟩
      intro member
      exact notClosed (List.mem_of_mem_dropLast member)
    · exact ⟨(List.nodup_cons.mp nodup).1, List.not_mem_nil⟩
  constructor
  · rw [List.cons_append, closed]
    apply @chain_join α _ _ head item [] (second :: rest) (List.isChain_singleton head) joined
    · refine ⟨List.not_mem_nil, ?_⟩
      rw [← closed, ← List.cons_append, List.dropLast_concat, List.mem_cons]
      exact not_or.mpr ⟨fun same => notHead same.symm, headOutside⟩
    · exact ⟨notClosed, List.not_mem_nil⟩
  · apply List.nodup_cons.mpr
    refine ⟨?_, List.nodup_cons.mpr ⟨notItem, (List.nodup_cons.mp ring.nodup).2⟩⟩
    rw [List.mem_cons]
    exact not_or.mpr ⟨fun same => notHead same.symm, headOutside⟩

theorem remove_ring {left right : List α} (ring : Ring links head (left ++ item :: right)) :
    Ring (links.remove item) head (left ++ right) := by
  have nodup := ring.nodup
  obtain ⟨start, before, leftEnd⟩ : ∃ start before, head :: left = start ++ [before] :=
    ⟨_, _, (List.dropLast_append_getLast (List.cons_ne_nil head left)).symm⟩
  obtain ⟨after, rest, rightStart⟩ : ∃ after rest, right ++ [head] = after :: rest :=
    List.exists_cons_of_ne_nil (by simp)
  have walk := ring.walk
  have shape : head :: (left ++ item :: right ++ [head]) =
      start ++ before :: item :: after :: rest := by
    calc head :: (left ++ item :: right ++ [head])
        = (head :: left) ++ item :: (right ++ [head]) := by simp
      _ = start ++ before :: item :: after :: rest := by
          rw [leftEnd, rightStart, List.append_assoc]
          rfl
  rw [shape] at walk
  obtain ⟨first, fromBefore, tail⟩ := List.isChain_append_cons_cons.mp walk
  obtain ⟨toAfter, second⟩ := List.isChain_cons_cons.mp tail
  have around : (head :: left).Nodup ∧ (right ++ [head]).Nodup ∧ item ∉ right ++ [head] ∧
      (∀ node ∈ head :: left, node ∉ right) ∧ (∀ node ∈ right ++ [head], node ∉ left) := by
    simp only [List.nodup_cons, List.nodup_append, List.mem_append, List.mem_cons] at nodup
    simp only [List.nodup_cons, List.nodup_append, List.mem_append, List.mem_cons]
    grind
  obtain ⟨leftNodup, rightNodup, itemOutside, leftApart, rightApart⟩ := around
  have beforeMember : before ∈ head :: left := by
    rw [leftEnd]
    exact List.mem_append_right start (List.mem_singleton_self before)
  have afterMember : after ∈ right ++ [head] := by
    rw [rightStart]
    exact .head _
  have notNext : links.next item ≠ item := by
    rw [toAfter.1]
    intro same
    rw [same] at afterMember
    exact itemOutside afterMember
  rw [remove_eq notNext, toAfter.1, fromBefore.2]
  constructor
  · have joined := chain_join first second ⟨?_, ?_⟩ ⟨?_, ?_⟩
    · have result : head :: (left ++ right ++ [head]) = start ++ before :: after :: rest := by
        calc head :: (left ++ right ++ [head])
            = (head :: left) ++ (right ++ [head]) := by simp
          _ = start ++ before :: after :: rest := by
              rw [leftEnd, rightStart, List.append_assoc]
              rfl
      rw [result]
      exact joined
    · rw [leftEnd] at leftNodup
      intro member
      exact (List.nodup_append.mp leftNodup).2.2 before member before (List.mem_singleton_self _) rfl
    · rw [← rightStart, List.dropLast_concat]
      exact leftApart before beforeMember
    · rw [rightStart] at rightNodup
      exact (List.nodup_cons.mp rightNodup).1
    · rw [← leftEnd, List.tail_cons]
      exact rightApart after afterMember
  · have sub : (head :: (left ++ right)).Sublist (head :: (left ++ item :: right)) :=
      List.Sublist.cons_cons head
        (List.Sublist.append (List.Sublist.refl left) (List.sublist_cons_self item right))
    exact nodup.sublist sub

end Splice

/-- The loop `for(b = start; b != head; b = move(b)) if(p(b)) ...`; `none` when `fuel`
nodes have been passed. -/
def search (move : α → α) (isHead p : α → Bool) : Nat → α → Option (Option α)
  | 0, _ => none
  | fuel + 1, node =>
    if isHead node then some none
    else if p node then some (some node)
    else search move isHead p fuel (move node)

theorem search_chain {move : α → α} {isHead p : α → Bool} {fuel : Nat} {start : α}
    (chain : (start :: (items ++ [head])).IsChain fun before after => move before = after)
    (stops : isHead head = true) (passes : ∀ node ∈ items, isHead node = false)
    (enough : items.length < fuel) :
    search move isHead p fuel (move start) = some (items.find? p) := by
  induction items generalizing fuel start with
  | nil =>
    obtain ⟨less, rfl⟩ : ∃ less, fuel = less + 1 := ⟨fuel - 1, by grind⟩
    have arrives : move start = head := (List.isChain_cons_cons.mp chain).1
    rw [arrives, search, if_pos stops]
    rfl
  | cons node rest ih =>
    obtain ⟨less, rfl⟩ : ∃ less, fuel = less + 1 := ⟨fuel - 1, by grind⟩
    obtain ⟨arrives, tail⟩ := List.isChain_cons_cons.mp chain
    have goesOn : isHead node = false := passes node (.head _)
    have shorter : rest.length < less := by
      rw [List.length_cons] at enough
      omega
    rw [arrives, search, if_neg (by simp [goesOn]), List.find?_cons]
    cases found : p node with
    | true => simp
    | false =>
      simp only [Bool.false_eq_true, ↓reduceIte]
      exact ih tail (fun other member => passes other (.tail node member)) shorter

section Directions
variable {isHead p : α → Bool} {fuel : Nat} (ring : Ring links head items)
variable (stops : isHead head = true) (passes : ∀ node ∈ items, isHead node = false)
variable (enough : items.length < fuel)
include ring stops passes enough

theorem search_forward :
    search links.next isHead p fuel (links.next head) = some (items.find? p) := by
  apply search_chain _ stops passes enough
  exact ring.walk.imp fun before after adjacent => adjacent.1

theorem search_backward :
    search links.prev isHead p fuel (links.prev head) = some (items.reverse.find? p) := by
  have back : (head :: (items.reverse ++ [head])).IsChain
      fun before after => links.prev before = after := by
    have reversed : head :: (items.reverse ++ [head]) = (head :: (items ++ [head])).reverse := by
      simp
    rw [reversed, List.isChain_reverse]
    exact ring.walk.imp fun before after adjacent => adjacent.2
  apply search_chain back stops
  · intro node member
    exact passes node (List.mem_reverse.mp member)
  · rw [List.length_reverse]
    exact enough

end Directions
end Xv6Hacks.CircularLists
