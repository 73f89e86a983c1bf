import Xv6Hacks.ProcessOwnership

/-!
# What `growproc` returns

`growproc` takes the result 0 of `allocuvm` and `deallocuvm` for a failure and computes
`sz + n` modulo `2 ^ 32`. A process that gives up all of its memory is therefore told that
nothing happened, and one that asks for less than nothing is told that it succeeded.
-/

namespace Xv6Hacks.GrowProc

open AddressSpace BootMemory ByteBuffers Kalloc Outcomes PageOwnership PageTables ProcessMemory
open SpaceGrowth SpaceTeardown UserSpaces
open PageFault (sampleBuild)
open ProcTable (Slot)

/-- The end of `growproc`: the value it returns and the state it leaves. -/
def finish (sys : Sys) (slot : Slot) (m : Mem) (sz : Nat) : Int × Sys :=
  if sz = 0 then (-1, setMem sys m)
  else (0, setSpace (setMem sys m) slot { sys.procs slot with sz := sz })

def growprocResult (b : Build) (sys : Sys) (slot : Slot) (n : Int) : Except Stop (Int × Sys) := do
  let proc := sys.procs slot
  let newsz := ((proc.sz + n) % 2 ^ 32).toNat
  if 0 < n then
    let (sz, m) ← allocuvm b sys.mem proc.pgdir proc.sz newsz
    .ok (finish sys slot m sz)
  else if n < 0 then
    let (sz, m) ← deallocuvm b sys.mem proc.pgdir proc.sz newsz
    .ok (finish sys slot m sz)
  else .ok (0, sys)

theorem finish_state (sys : Sys) (slot : Slot) (m : Mem) (sz : Nat) :
    (finish sys slot m sz).2 = setSize sys slot m sz := by
  rw [finish, setSize]
  split <;> rfl

theorem growproc_result_state (b : Build) (sys : Sys) (slot : Slot) (n : Int) :
    (do let result ← growprocResult b sys slot n; .ok result.2) = growproc b sys slot n := by
  rw [growprocResult, growproc]
  generalize (((sys.procs slot).sz + n) % 2 ^ 32).toNat = newsz
  simp only
  split
  · cases allocuvm b sys.mem (sys.procs slot).pgdir (sys.procs slot).sz newsz with
    | error stop => rfl
    | ok result => exact congrArg Except.ok (finish_state sys slot result.2 result.1)
  · split
    · cases deallocuvm b sys.mem (sys.procs slot).pgdir (sys.procs slot).sz newsz with
      | error stop => rfl
      | ok result => exact congrArg Except.ok (finish_state sys slot result.2 result.1)
    · rfl

def PresentBelow (m : Mem) (pgdir sz : Nat) : Prop :=
  ∀ k, k < userPages → (has (entry m pgdir k) pteP = true ↔ k < pagesUp sz)

def contents (m : Mem) (pgdir k : Nat) : Buffer := m.page (pteFrame (entry m pgdir k))

/-- The size is the sum, computed without wrapping around, and the memory follows it. -/
structure Resized (sys : Sys) (slot : Slot) (n : Int) (after : Sys) : Prop where
  size : ((after.procs slot).sz : Int) = (sys.procs slot).sz + n
  present : PresentBelow after.mem (sys.procs slot).pgdir (after.procs slot).sz
  kept : ∀ k, k < pagesUp (sys.procs slot).sz → k < pagesUp (after.procs slot).sz →
    ∀ offset, offset < pgsize → contents after.mem (sys.procs slot).pgdir k offset =
      contents sys.mem (sys.procs slot).pgdir k offset
  zero : ∀ k, pagesUp (sys.procs slot).sz ≤ k → k < pagesUp (after.procs slot).sz →
    ∀ offset, offset < pgsize → contents after.mem (sys.procs slot).pgdir k offset = 0

structure Untouched (sys : Sys) (slot : Slot) (after : Sys) : Prop where
  space : after.procs slot = sys.procs slot
  directory : after.mem.page (sys.procs slot).pgdir = sys.mem.page (sys.procs slot).pgdir
  entries : ∀ k, k < vpages → entry after.mem (sys.procs slot).pgdir k =
    entry sys.mem (sys.procs slot).pgdir k
  freelist : after.mem.freelist = sys.mem.freelist

/-- The call resizes the process exactly or has no effect, as its result says. -/
def Exact (sys : Sys) (slot : Slot) (n : Int) (result : Int × Sys) : Prop :=
  (result.1 = 0 → Resized sys slot n result.2) ∧ (result.1 = -1 → Untouched sys slot result.2)

section Finish
variable {sys : Sys} {slot : Slot} {m : Mem} {sz : Nat}

theorem Untouched.refl (sys : Sys) (slot : Slot) : Untouched sys slot (setMem sys sys.mem) where
  space := rfl
  directory := rfl
  entries := fun _ _ => rfl
  freelist := rfl

end Finish

section Resizing
variable {b : Build} {κ : Nat → Kind} {sys : Sys} {slot : Slot}

structure Ready (κ : Nat → Kind) (sys : Sys) (slot : Slot) : Prop where
  dir : κ (sys.procs slot).pgdir = .pgdir
  below : (sys.procs slot).sz < kernbase
  present : PresentBelow sys.mem (sys.procs slot).pgdir (sys.procs slot).sz

theorem Ready.user_page (ready : Ready κ sys slot) {k : Nat}
    (inside : k < pagesUp (sys.procs slot).sz) : k < userPages :=
  inside.trans_le (pages_up_user ready.below)

theorem Ready.has_page (ready : Ready κ sys slot) {k : Nat}
    (inside : k < pagesUp (sys.procs slot).sz) :
    has (entry sys.mem (sys.procs slot).pgdir k) pteP = true :=
  (ready.present k (ready.user_page inside)).mpr inside

theorem present_ne_zero {pte : Pte} (present : has pte pteP = true) : pte ≠ 0 := by
  rintro rfl
  contradiction

section
variable (ready : Ready κ sys slot) (owned : Owned b κ none sys.mem)
include ready owned

theorem Ready.sized : Sized sys.mem (sys.procs slot).pgdir (sys.procs slot).sz where
  below := ready.below
  absent := by
    intro k above user
    rcases owned.mapped _ k ready.dir user with zero | ⟨present, -⟩
    · exact zero
    · have inside := (ready.present k user).mp present
      omega
  tables := by
    intro k inside
    exact pde_of_entry (present_ne_zero (ready.has_page inside))

end

section Shrinking
variable {n : Int} {newsz : Nat} {κ' : Nat → Kind} {m : Mem}
variable (ready : Ready κ sys slot) (owned' : Owned b κ' none m)
variable (less : newsz < (sys.procs slot).sz)
variable (released : Released (sys.procs slot).pgdir
  (fun k => pagesUp newsz ≤ k ∧ k < pagesUp (sys.procs slot).sz) κ sys.mem κ' m)
include ready less released

include owned'

end Shrinking

section Calls
variable (counting : b.original = false) (strict : b.kallocNull = false)
include counting strict

end Calls
end Resizing

end Xv6Hacks.GrowProc
