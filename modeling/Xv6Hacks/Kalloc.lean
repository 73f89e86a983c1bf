import Xv6Hacks.ByteBuffers

/-!
# The page allocator

`kalloc.c`: the free list, the reference counts of `kmem.runs` and the contents of
physical memory. A page is named by its frame number, its physical address divided by
`PGSIZE`; `kmem` is kept beside the memory, although it lies in it.

The build decides two things. Under `-Doriginal` no references are counted. `kalloc`
promises to return 0 when no page is free; the code takes the head of an empty list
instead, and `kallocNull` selects between the promise and the code.
-/

namespace Xv6Hacks.Kalloc

open ByteBuffers Function

def pgsize : Nat := 4096

def extmem : Nat := 0x100000

def phystop : Nat := 0xE000000

def devspace : Nat := 0xFE000000

def kernbase : Nat := 0x80000000

def kernlink : Nat := kernbase + extmem

def maxpages : Nat := phystop / pgsize

def p2v (pa : Nat) : Nat := (pa + kernbase) % 2 ^ 32

def v2p (va : Nat) : Nat := (va + (2 ^ 32 - kernbase)) % 2 ^ 32

/-- The build and the link map. `data` is page-aligned, and `end` lies in the first
four megabytes, which is all that the boot page table maps. -/
structure Build where
  original : Bool
  kallocNull : Bool
  dataFrame : Nat
  endFrame : Nat
  textNonempty : extmem / pgsize < dataFrame
  dataNonempty : dataFrame < endFrame
  endMapped : endFrame ≤ 1024

/-- Why the kernel stops: a `panic`, a null pointer or an index outside `kmem.runs`. -/
inductive Stop where
  | kfree
  | refCountFreeing
  | nullRun
  | runsIndex
  | nullPage
  | remap
  | moreThanAPage
  | loaduvmAlign
  | loaduvmAbsent
  | overKernel
  | noPgdir
  | clearpteu
  | pteShouldExist
  | pageNotPresent
  | nullPte
  | fetchingPte
  | notCow
  | mappingPages
  | outOfMemory
  | initExiting
  | notRunning
  deriving DecidableEq, Repr

structure Mem where
  page : Nat → Buffer
  freelist : List Nat
  refCount : Nat → Int

def setPage (m : Mem) (frame : Nat) (content : Buffer) : Mem :=
  { m with page := update m.page frame content }

def memset (m : Mem) (frame : Nat) (value : Byte) : Mem := setPage m frame fun _ => value

def setRefCount (m : Mem) (frame : Nat) (count : Int) : Mem :=
  { m with refCount := update m.refCount frame count }

def pop (m : Mem) (frame : Nat) (rest : List Nat) : Mem :=
  setRefCount { m with freelist := rest } frame (m.refCount frame + 1)

def kalloc (b : Build) (m : Mem) : Except Stop (Option Nat × Mem) :=
  match m.freelist with
  | frame :: rest =>
    if b.original then .ok (some frame, { m with freelist := rest })
    else .ok (some frame, pop m frame rest)
  | [] => if b.kallocNull then .ok (none, m) else .error .nullRun

def push (m : Mem) (frame : Nat) : Mem := { m with freelist := frame :: m.freelist }

/-- `_kfree`. The junk is written before the count is looked at. -/
def kfreePage (b : Build) (m : Mem) (frame : Nat) (isStartup : Bool) : Except Stop Mem :=
  if frame < b.endFrame ∨ maxpages ≤ frame then .error .kfree
  else
    let m := memset m frame 1
    if b.original then .ok (push m frame)
    else if isStartup then
      if m.refCount frame = 0 then .ok (push m frame) else .ok m
    else if m.refCount frame = 0 then .error .refCountFreeing
    else
      let m := setRefCount m frame (m.refCount frame - 1)
      if m.refCount frame = 0 then .ok (push m frame) else .ok m

def kfree (b : Build) (m : Mem) (frame : Nat) : Except Stop Mem := kfreePage b m frame false

def kfreeSys (b : Build) (m : Mem) (frame : Nat) : Except Stop Mem := kfreePage b m frame true

/-- The pages of frames `first` to `last - 1`. -/
def freerange (b : Build) (m : Mem) (first last : Nat) : Except Stop Mem :=
  (List.range' first (last - first)).foldlM (kfreeSys b) m

def kinit1 (b : Build) (m : Mem) : Except Stop Mem := freerange b m b.endFrame 1024

def kinit2 (b : Build) (m : Mem) : Except Stop Mem := freerange b m 1024 maxpages

def runIndex (va : Nat) : Except Stop Nat :=
  if v2p va / pgsize < maxpages then .ok (v2p va / pgsize) else .error .runsIndex

def getRefCount (m : Mem) (va : Nat) : Except Stop Int := do
  let index ← runIndex va
  .ok (m.refCount index)

def incRefCount (m : Mem) (va : Nat) : Except Stop Mem := do
  let index ← runIndex va
  .ok (setRefCount m index (m.refCount index + 1))

def decRefCount (m : Mem) (va : Nat) : Except Stop Mem := do
  let index ← runIndex va
  .ok (setRefCount m index (m.refCount index - 1))

section Facts
variable (m : Mem) (frame other : Nat)

theorem maxpages_value : maxpages = 57344 := by decide

@[simp] theorem set_page_same (content : Buffer) : (setPage m frame content).page frame = content :=
  update_self _ _ _

theorem set_page_other (content : Buffer) (different : other ≠ frame) :
    (setPage m frame content).page other = m.page other := update_of_ne different _ _

@[simp] theorem set_page_freelist (content : Buffer) :
    (setPage m frame content).freelist = m.freelist := rfl

@[simp] theorem set_page_ref_count (content : Buffer) :
    (setPage m frame content).refCount = m.refCount := rfl

@[simp] theorem set_ref_count_same (count : Int) :
    (setRefCount m frame count).refCount frame = count := update_self _ _ _

theorem set_ref_count_other (count : Int) (different : other ≠ frame) :
    (setRefCount m frame count).refCount other = m.refCount other :=
  update_of_ne different _ _

@[simp] theorem set_ref_count_page (count : Int) : (setRefCount m frame count).page = m.page := rfl

@[simp] theorem pop_page (rest : List Nat) : (pop m frame rest).page = m.page := rfl

@[simp] theorem pop_freelist (rest : List Nat) : (pop m frame rest).freelist = rest := rfl

theorem pop_ref_count (rest : List Nat) :
    (pop m frame rest).refCount = update m.refCount frame (m.refCount frame + 1) := rfl

theorem kalloc_cons {b : Build} {rest : List Nat} (counting : b.original = false)
    (list : m.freelist = frame :: rest) : kalloc b m = .ok (some frame, pop m frame rest) := by
  simp only [kalloc, list, counting, Bool.false_eq_true, ↓reduceIte]

@[simp] theorem push_freelist : (push m frame).freelist = frame :: m.freelist := rfl

def drop (m : Mem) (frame : Nat) : Mem :=
  let dropped := setRefCount (memset m frame 1) frame (m.refCount frame - 1)
  if m.refCount frame - 1 = 0 then push dropped frame else dropped

theorem kfree_drop {b : Build} (counting : b.original = false) (lower : b.endFrame ≤ frame)
    (upper : frame < maxpages) (positive : m.refCount frame ≠ 0) :
    kfree b m frame = .ok (drop m frame) := by
  have inside : ¬ (frame < b.endFrame ∨ maxpages ≤ frame) := by omega
  have same : (memset m frame 1).refCount = m.refCount := rfl
  simp only [kfree, kfreePage, if_neg inside, counting, same, positive, Bool.false_eq_true,
    ↓reduceIte, set_ref_count_same, drop]
  split
  · rfl
  · rfl

theorem drop_page : (drop m frame).page = update m.page frame fun _ => 1 := by
  rw [drop]
  split
  · rfl
  · rfl

theorem drop_ref_count :
    (drop m frame).refCount = update m.refCount frame (m.refCount frame - 1) := by
  rw [drop]
  split
  · rfl
  · rfl

theorem drop_freelist_last (last : m.refCount frame = 1) :
    (drop m frame).freelist = frame :: m.freelist := by
  rw [drop, if_pos (by omega)]
  rfl

theorem drop_freelist_shared (shared : m.refCount frame ≠ 1) :
    (drop m frame).freelist = m.freelist := by
  rw [drop, if_neg (by omega)]
  rfl

theorem v2p_p2v (inside : frame < maxpages) : v2p (p2v (frame * pgsize)) / pgsize = frame := by
  simp only [p2v, v2p, kernbase, pgsize, maxpages_value] at inside ⊢
  omega

theorem p2v_ne_zero (inside : frame < maxpages) : p2v (frame * pgsize) ≠ 0 := by
  simp only [p2v, kernbase, pgsize, maxpages_value] at inside ⊢
  omega

theorem run_index_p2v (inside : frame < maxpages) :
    runIndex (p2v (frame * pgsize)) = .ok frame := by
  rw [runIndex, v2p_p2v frame inside, if_pos inside]

theorem run_index_null : runIndex 0 = .error .runsIndex := by
  have beyond : ¬ v2p 0 / pgsize < maxpages := by
    simp only [v2p, kernbase, pgsize, maxpages_value]
    omega
  rw [runIndex, if_neg beyond]

end Facts

-- Unfolding these on a variable would count up to `KERNBASE`.
attribute [irreducible] p2v v2p

end Xv6Hacks.Kalloc
