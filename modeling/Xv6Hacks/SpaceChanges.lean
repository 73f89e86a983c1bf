import Xv6Hacks.SpaceTeardown
import Xv6Hacks.UserSpaces

/-!
# What an operation on one address space leaves alone

Growing, shrinking, sharing and freeing change the tables of one directory, and of no
other. Sequences of such operations are put together here.
-/

namespace Xv6Hacks.SpaceChanges

open Kalloc PageOwnership PageTables SpaceGrowth SpaceTeardown UserSpaces

/-- Only the directories in `changed` appear, disappear or have entries changed. -/
structure Touches (changed : Nat → Prop) (κ : Nat → Kind) (m : Mem) (κ' : Nat → Kind)
    (m' : Mem) : Prop where
  dirs : ∀ frame, ¬ changed frame → (κ' frame = .pgdir ↔ κ frame = .pgdir)
  kernel : ∀ frame, κ' frame = .kernel ↔ κ frame = .kernel
  outside : ∀ frame, κ' frame = .outside ↔ κ frame = .outside
  others : ∀ other, ¬ changed other → κ other = .pgdir →
    m'.page other = m.page other ∧ ∀ n, entry m' other n = entry m other n

section Touching
variable {changed : Nat → Prop} {κ κ' κ'' : Nat → Kind} {m m' m'' : Mem} {pgdir : Nat}

theorem Touches.refl (changed : Nat → Prop) (κ : Nat → Kind) (m : Mem) :
    Touches changed κ m κ m where
  dirs := fun _ _ => .rfl
  kernel := fun _ => .rfl
  outside := fun _ => .rfl
  others := fun _ _ _ => ⟨rfl, fun _ => rfl⟩

theorem Touches.mono {more : Nat → Prop} (touches : Touches changed κ m κ' m')
    (fewer : ∀ frame, changed frame → more frame) : Touches more κ m κ' m' where
  dirs := fun frame same => touches.dirs frame fun here => same (fewer frame here)
  kernel := touches.kernel
  outside := touches.outside
  others := fun other same => touches.others other fun here => same (fewer other here)

theorem Touches.trans (first : Touches changed κ m κ' m') (second : Touches changed κ' m' κ'' m'') :
    Touches changed κ m κ'' m'' where
  dirs := fun frame same => (second.dirs frame same).trans (first.dirs frame same)
  kernel := fun frame => (second.kernel frame).trans (first.kernel frame)
  outside := fun frame => (second.outside frame).trans (first.outside frame)
  others := by
    intro other same dir
    obtain ⟨page, entries⟩ := first.others other same dir
    obtain ⟨page', entries'⟩ := second.others other same ((first.dirs other same).mpr dir)
    exact ⟨page'.trans page, fun n => (entries' n).trans (entries n)⟩

theorem Touches.forget (touches : Touches (fun frame => changed frame ∨ frame = pgdir) κ m κ' m')
    (before : κ pgdir ≠ .pgdir) (after : κ' pgdir ≠ .pgdir) : Touches changed κ m κ' m' where
  dirs := by
    intro frame same
    by_cases this : frame = pgdir
    · rw [this]
      exact iff_of_false after before
    · exact touches.dirs frame (not_or.mpr ⟨same, this⟩)
  kernel := touches.kernel
  outside := touches.outside
  others := by
    intro other same dir
    apply touches.others other _ dir
    rintro (here | rfl)
    · exact same here
    · exact before dir

theorem Touches.sized (touches : Touches changed κ m κ' m') {other sz : Nat}
    (same : ¬ changed other) (dir : κ other = .pgdir) (sized : Sized m other sz) :
    Sized m' other sz := by
  obtain ⟨page, entries⟩ := touches.others other same dir
  refine ⟨sized.below, ?_, ?_⟩
  · intro n above user
    rw [entries n]
    exact sized.absent n above user
  · intro n inside
    rw [read_entry_congr other (pdx n) page]
    exact sized.tables n inside

theorem touches_contents {b : Build} {hand : Option Nat} (owned : Owned b κ hand m)
    (pages : ∀ frame, (κ frame).structural = true → m'.page frame = m.page frame) :
    Touches changed κ m κ m' where
  dirs := fun _ _ => .rfl
  kernel := fun _ => .rfl
  outside := fun _ => .rfl
  others := by
    intro other _ dir
    have page := pages other (by rw [dir]; rfl)
    refine ⟨page, owned.entry_congr dir page ?_⟩
    intro table index label
    exact pages table (by rw [label]; rfl)

theorem touches_write_entry {b : Build} {hand : Option Nat} (owned : Owned b κ hand m)
    {table n : Nat} (label : κ table = .pgtab pgdir (pdx n)) (index : Nat) (pte : Pte) :
    Touches (fun frame => frame = pgdir) κ m κ (writeEntry m table index pte) where
  dirs := fun _ _ => .rfl
  kernel := fun _ => .rfl
  outside := fun _ => .rfl
  others := by
    intro other different dir
    have page : (writeEntry m table index pte).page other = m.page other :=
      write_entry_page _ _ _ _ _ (dir_ne_table dir label)
    refine ⟨page, owned.entry_congr dir page ?_⟩
    intro more slot isTable
    apply write_entry_page
    rintro rfl
    rw [label] at isTable
    injection isTable with same
    exact different same.symm

theorem grows_touches (grows : Grows pgdir κ m κ' m') :
    Touches (fun frame => frame = pgdir) κ m κ' m' := by
  have role (frame : Nat) : κ' frame = κ frame ∨ (κ frame = .free ∧ (κ' frame = .user ∨
      (∃ index, κ' frame = .pgtab pgdir index) ∨ (frame = pgdir ∧ κ' frame = .pgdir))) := by
    by_cases free : κ frame = .free
    · rcases grows.fresh frame free with still | new
      · exact .inl (still.trans free.symm)
      · exact .inr ⟨free, new⟩
    · exact .inl (grows.kinds frame free)
  constructor
  · intro frame different
    rcases role frame with same | ⟨free, user | ⟨index, table⟩ | ⟨here, -⟩⟩
    · rw [same]
    · simp [free, user]
    · simp [free, table]
    · exact absurd here different
  · intro frame
    rcases role frame with same | ⟨free, user | ⟨index, table⟩ | ⟨-, dir⟩⟩
    · rw [same]
    · simp [free, user]
    · simp [free, table]
    · simp [free, dir]
  · intro frame
    rcases role frame with same | ⟨free, user | ⟨index, table⟩ | ⟨-, dir⟩⟩
    · rw [same]
    · simp [free, user]
    · simp [free, table]
    · simp [free, dir]
  · exact grows.others

theorem released_touches {gone : Nat → Prop} (released : Released pgdir gone κ m κ' m') :
    Touches (fun frame => frame = pgdir) κ m κ' m' := by
  constructor
  · intro frame _
    rcases released.roles frame with same | ⟨user, free⟩
    · rw [same]
    · simp [user, free]
  · intro frame
    rcases released.roles frame with same | ⟨user, free⟩
    · rw [same]
    · simp [user, free]
  · intro frame
    rcases released.roles frame with same | ⟨user, free⟩
    · rw [same]
    · simp [user, free]
  · exact released.others

theorem freed_touches (freed : Freed pgdir κ m κ' m') (dir : κ pgdir = .pgdir) :
    Touches (fun frame => frame = pgdir) κ m κ' m' := by
  constructor
  · intro frame different
    rcases freed.roles frame with same | ⟨free, user | here | ⟨index, table⟩⟩
    · rw [same]
    · simp [user, free]
    · exact absurd here different
    · simp [table, free]
  · intro frame
    rcases freed.roles frame with same | ⟨free, user | rfl | ⟨index, table⟩⟩
    · rw [same]
    · simp [user, free]
    · simp [dir, free]
    · simp [table, free]
  · intro frame
    rcases freed.roles frame with same | ⟨free, user | rfl | ⟨index, table⟩⟩
    · rw [same]
    · simp [user, free]
    · simp [dir, free]
    · simp [table, free]
  · exact freed.others

end Touching
end Xv6Hacks.SpaceChanges
