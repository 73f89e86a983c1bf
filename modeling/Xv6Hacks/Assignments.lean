import Mathlib.Logic.Function.Basic

/-!
# Objects handed out one to a place

Some objects have a certain role. Each of them is either one of a fixed set or held by
exactly one place. The lemmas say how this survives handing out, taking back and
exchanging one object. Nothing here mentions a particular system.
-/

namespace Xv6Hacks.Assignments

open Function

variable {Place Object : Type*}

structure Assigned (role fixed : Object → Prop) (hold : Place → Option Object) : Prop where
  covers : ∀ object, role object ↔ fixed object ∨ ∃ place, hold place = some object
  apart : ∀ place object, hold place = some object → ¬ fixed object
  once : ∀ left right object, hold left = some object → hold right = some object → left = right

variable {role more fixed : Object → Prop} {hold : Place → Option Object} {place : Place}
  {object : Object}

theorem Assigned.held (assigned : Assigned role fixed hold) (holds : hold place = some object) :
    role object :=
  (assigned.covers object).mpr (.inr ⟨place, holds⟩)

theorem Assigned.congr (assigned : Assigned role fixed hold)
    (same : ∀ object, more object ↔ role object) : Assigned more fixed hold where
  covers := fun object => (same object).trans (assigned.covers object)
  apart := assigned.apart
  once := assigned.once

theorem assigned_nothing (fixed : Object → Prop) :
    Assigned fixed fixed (fun _ : Place => none) where
  covers := fun object => by simp
  apart := fun _ _ holds => by cases holds
  once := fun _ _ _ holds => by cases holds

variable [DecidableEq Place]

theorem Assigned.insert (assigned : Assigned role fixed hold) (empty : hold place = none)
    (new : ¬ role object) : Assigned (fun other => role other ∨ other = object) fixed
      (update hold place (some object)) where
  covers := by
    intro other
    rw [assigned.covers other]
    constructor
    · rintro ((isFixed | ⟨holder, holds⟩) | rfl)
      · exact .inl isFixed
      · have different : holder ≠ place := by
          rintro rfl
          rw [empty] at holds
          cases holds
        exact .inr ⟨holder, by rw [update_of_ne different, holds]⟩
      · exact .inr ⟨place, update_self _ _ _⟩
    · rintro (isFixed | ⟨holder, holds⟩)
      · exact .inl (.inl isFixed)
      · by_cases same : holder = place
        · rw [same, update_self] at holds
          exact .inr (Option.some.inj holds).symm
        · rw [update_of_ne same] at holds
          exact .inl (.inr ⟨holder, holds⟩)
  apart := by
    intro holder other holds isFixed
    by_cases same : holder = place
    · rw [same, update_self] at holds
      cases holds
      exact new ((assigned.covers object).mpr (.inl isFixed))
    · rw [update_of_ne same] at holds
      exact assigned.apart holder other holds isFixed
  once := by
    intro left right other atLeft atRight
    by_cases isLeft : left = place
    · by_cases isRight : right = place
      · rw [isLeft, isRight]
      · rw [isLeft, update_self] at atLeft
        cases atLeft
        rw [update_of_ne isRight] at atRight
        exact absurd (assigned.held atRight) new
    · rw [update_of_ne isLeft] at atLeft
      by_cases isRight : right = place
      · rw [isRight, update_self] at atRight
        cases atRight
        exact absurd (assigned.held atLeft) new
      · rw [update_of_ne isRight] at atRight
        exact assigned.once left right other atLeft atRight

theorem Assigned.erase (assigned : Assigned role fixed hold) (holds : hold place = some object) :
    Assigned (fun other => role other ∧ other ≠ object) fixed (update hold place none) where
  covers := by
    intro other
    rw [assigned.covers other]
    constructor
    · rintro ⟨isFixed | ⟨holder, atHolder⟩, different⟩
      · exact .inl isFixed
      · have notPlace : holder ≠ place := by
          rintro rfl
          rw [holds] at atHolder
          exact different (Option.some.inj atHolder).symm
        exact .inr ⟨holder, by rw [update_of_ne notPlace, atHolder]⟩
    · rintro (isFixed | ⟨holder, atHolder⟩)
      · refine ⟨.inl isFixed, ?_⟩
        rintro rfl
        exact assigned.apart place other holds isFixed
      · by_cases same : holder = place
        · rw [same, update_self] at atHolder
          cases atHolder
        · rw [update_of_ne same] at atHolder
          refine ⟨.inr ⟨holder, atHolder⟩, ?_⟩
          rintro rfl
          exact same (assigned.once holder place other atHolder holds)
  apart := by
    intro holder other atHolder
    by_cases same : holder = place
    · rw [same, update_self] at atHolder
      cases atHolder
    · rw [update_of_ne same] at atHolder
      exact assigned.apart holder other atHolder
  once := by
    intro left right other atLeft atRight
    by_cases isLeft : left = place
    · rw [isLeft, update_self] at atLeft
      cases atLeft
    · by_cases isRight : right = place
      · rw [isRight, update_self] at atRight
        cases atRight
      · rw [update_of_ne isLeft] at atLeft
        rw [update_of_ne isRight] at atRight
        exact assigned.once left right other atLeft atRight

/-- One object goes back and another is handed out in its place. -/
theorem Assigned.exchange (assigned : Assigned role fixed hold) (holds : hold place = some object)
    {next : Object} (new : ¬ role next) :
    Assigned (fun other => (role other ∧ other ≠ object) ∨ other = next) fixed
    (update hold place (some next)) := by
  have erased := assigned.erase holds
  have inserted := erased.insert (update_self place none hold)
    (fun here => new here.1)
  rwa [update_idem] at inserted

end Xv6Hacks.Assignments
