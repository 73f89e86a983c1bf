import Mathlib.Data.List.Nodup
import Mathlib.Logic.Function.Basic
import Mathlib.Tactic

/-!
# Singly linked lists with an intrusive link

The items carry their own link, so that a list is a first item and a function from each
item to the next one. A pointer to a link is a place: the head, or the link of an item.
`Holds` relates such a chain to the list of its items; nothing here mentions a
particular system.
-/

namespace Xv6Hacks.LinkedLists

open Function

structure Chain (α : Type) where
  head : Option α
  next : α → Option α

variable {α : Type}

def Linked (next : α → Option α) : Option α → List α → Prop
  | start, [] => start = none
  | start, item :: rest => start = some item ∧ Linked next (next item) rest

def Holds (chain : Chain α) (items : List α) : Prop := Linked chain.next chain.head items

theorem Linked.congr {next after : α → Option α} {items : List α}
    (same : ∀ item ∈ items, after item = next item) {start : Option α}
    (linked : Linked next start items) : Linked after start items := by
  induction items generalizing start with
  | nil => exact linked
  | cons item rest ih =>
    obtain ⟨first, tail⟩ := linked
    refine ⟨first, ?_⟩
    rw [same item (.head _)]
    exact ih (fun other member => same other (.tail item member)) tail

/-- The place of a link: `none` is the head of the chain. -/
def Chain.link (chain : Chain α) : Option α → Option α
  | none => chain.head
  | some item => chain.next item

/-- The first empty link from `place` on, or `none` when `fuel` links are all full. -/
def Chain.emptyLink (chain : Chain α) : Nat → Option α → Option (Option α)
  | 0, _ => none
  | fuel + 1, place =>
    match chain.link place with
    | none => some place
    | some item => chain.emptyLink fuel (some item)

theorem Holds.head {chain : Chain α} {items : List α} (holds : Holds chain items) :
    chain.head = items.head? := by
  cases items with
  | nil => exact holds
  | cons item rest => exact holds.1

theorem Holds.tail {chain : Chain α} {item : α} {rest : List α}
    (holds : Holds chain (item :: rest)) : Holds { chain with head := chain.next item } rest :=
  holds.2

theorem empty_link_end (chain : Chain α) {items : List α} {fuel : Nat} {place : Option α}
    (linked : Linked chain.next (chain.link place) items) (enough : items.length < fuel) :
    chain.emptyLink fuel place = some (items.getLast?.or place) := by
  induction items generalizing fuel place with
  | nil =>
    obtain ⟨rest, rfl⟩ : ∃ rest, fuel = rest + 1 := ⟨fuel - 1, by grind⟩
    have empty : chain.link place = none := linked
    simp only [Chain.emptyLink, empty]
    rfl
  | cons item rest ih =>
    obtain ⟨less, rfl⟩ : ∃ less, fuel = less + 1 := ⟨fuel - 1, by grind⟩
    obtain ⟨first, tail⟩ := linked
    have shorter : rest.length < less := by
      rw [List.length_cons] at enough
      omega
    simp only [Chain.emptyLink, first]
    rw [@ih less (some item) tail shorter, List.getLast?_cons]
    cases rest.getLast? <;> rfl

variable [DecidableEq α]

def Chain.store (chain : Chain α) (place : Option α) (item : Option α) : Chain α :=
  match place with
  | none => { chain with head := item }
  | some before => { chain with next := update chain.next before item }

/-- Clear the link of `item` and hang it on the last link. -/
def Chain.append (chain : Chain α) (fuel : Nat) (item : α) : Option (Chain α) :=
  let cleared := { chain with next := update chain.next item none }
  (cleared.emptyLink fuel none).map fun place => cleared.store place (some item)

theorem linked_snoc {next : α → Option α} {start : Option α} {items : List α} {item : α}
    (linked : Linked next start items) (distinct : items.Nodup) (isNew : item ∉ items)
    (last : next item = none) (nonempty : items ≠ []) :
    Linked (update next (items.getLast nonempty) (some item)) start (items ++ [item]) := by
  induction items generalizing start with
  | nil => exact absurd rfl nonempty
  | cons first rest ih =>
    obtain ⟨isFirst, tail⟩ := linked
    obtain ⟨notLater, restDistinct⟩ := List.nodup_cons.mp distinct
    rw [List.mem_cons, not_or] at isNew
    refine ⟨isFirst, ?_⟩
    by_cases empty : rest = []
    · subst empty
      rw [List.getLast_singleton, update_self]
      refine ⟨rfl, ?_⟩
      rw [update_of_ne isNew.1]
      exact last
    · rw [List.getLast_cons empty, update_of_ne]
      · exact ih tail restDistinct isNew.2 empty
      · intro same
        rw [same] at notLater
        exact notLater (List.getLast_mem empty)

theorem append_holds {chain : Chain α} {items : List α} (holds : Holds chain items)
    (distinct : items.Nodup) {item : α} (isNew : item ∉ items) {fuel : Nat}
    (enough : items.length < fuel) :
    ∃ after, chain.append fuel item = some after ∧ Holds after (items ++ [item]) := by
  have cleared : Linked (update chain.next item none) chain.head items := by
    apply Linked.congr _ holds
    intro other member
    apply update_of_ne
    intro same
    rw [same] at member
    exact isNew member
  have last : update chain.next item none item = none := update_self _ _ _
  have found := @empty_link_end α ⟨chain.head, update chain.next item none⟩ items fuel
    none cleared enough
  unfold Chain.append
  dsimp only
  rw [found, Option.map_some]
  refine ⟨_, rfl, ?_⟩
  cases items with
  | nil => exact ⟨rfl, last⟩
  | cons first rest =>
    rw [List.getLast?_eq_some_getLast (List.cons_ne_nil first rest)]
    exact linked_snoc cleared distinct isNew last (List.cons_ne_nil first rest)

end Xv6Hacks.LinkedLists
