import Xv6Hacks.GuardedRuns
import Xv6Hacks.Kalloc
import Xv6Hacks.LinkedLists

/-!
# The free list in `kmem.runs`

`kalloc.c` with its pointers. A run is an element of the side array, the free list is a
chain of run addresses, and the address of a page is recovered from the distance of its run
to the start of the array. `Represents` relates the chain to the list of frames that
`Kalloc` works with. The build is the default one, which counts references.
-/

namespace Xv6Hacks.PageRuns

open Function GuardedRuns
open Xv6Hacks.Kalloc
open LinkedLists

def sizeofRun : Nat := 8

/-- The physical address up to which the boot page table maps. -/
def mappedAtBoot : Nat := 4 * 1024 * 1024

/-- Where the linker puts `end` and `kmem.runs`. -/
structure Link where
  kernelEnd : Nat
  runs : Nat
  afterLink : kernlink ≤ runs
  beforeEnd : runs + sizeofRun * maxpages ≤ kernelEnd
  endMapped : kernelEnd ≤ kernbase + mappedAtBoot

structure Run where
  refCount : Int
  next : Nat

structure Kmem where
  freelist : Nat
  run : Nat → Run

def runAddress (link : Link) (index : Nat) : Nat := link.runs + sizeofRun * index

def runIndex (link : Link) (r : Nat) : Nat := (r - link.runs) / sizeofRun

def Kmem.setRun (k : Kmem) (index : Nat) (run : Run) : Kmem :=
  { k with run := update k.run index run }

def kalloc (link : Link) (k : Kmem) : Except Stop (Nat × Kmem) :=
  let r := k.freelist
  let index := runIndex link r
  let k := if r ≠ 0 then { k with freelist := (k.run index).next } else k
  -- `r->ref_count++` comes before anybody asks whether there is a run.
  if r = 0 then .error .nullRun
  else
    let run := k.run index
    .ok (p2v (index * pgsize), k.setRun index { run with refCount := run.refCount + 1 })

def kfreePage (link : Link) (k : Kmem) (v : Nat) (isStartup : Bool) : Except Stop Kmem :=
  if v % pgsize ≠ 0 ∨ v < link.kernelEnd ∨ phystop ≤ v2p v then .error .kfree
  else
    let index := v2p v / pgsize
    let run := k.run index
    if isStartup = false ∧ run.refCount = 0 then .error .refCountFreeing
    else
      let count := if isStartup then run.refCount else run.refCount - 1
      if count = 0 then
        .ok { k.setRun index { refCount := count, next := k.freelist } with
          freelist := runAddress link index }
      else .ok (k.setRun index { run with refCount := count })

def kfree (link : Link) (k : Kmem) (v : Nat) : Except Stop Kmem := kfreePage link k v false

def kfreeSys (link : Link) (k : Kmem) (v : Nat) : Except Stop Kmem := kfreePage link k v true

def pgroundup (a : Nat) : Nat := (a + pgsize - 1) / pgsize * pgsize

def rangePages (vstart vend : Nat) : List Nat :=
  (List.range ((vend - pgroundup vstart) / pgsize)).map fun i => pgroundup vstart + i * pgsize

def freerange (link : Link) (k : Kmem) (vstart vend : Nat) : Except Stop Kmem :=
  (rangePages vstart vend).foldlM (kfreeSys link) k

def pages (link : Link) : List Nat :=
  rangePages link.kernelEnd (p2v mappedAtBoot) ++ rangePages (p2v mappedAtBoot) (p2v phystop)

theorem p2v_small {pa : Nat} (small : pa ≤ phystop) : p2v pa = pa + kernbase := by
  have stop : phystop = 0xE000000 := rfl
  have base : kernbase = 0x80000000 := rfl
  unfold p2v
  omega

def InRange (link : Link) (frame : Nat) : Prop :=
  link.kernelEnd ≤ p2v (frame * pgsize) ∧ frame < maxpages

variable {frame : Nat}

theorem page_address (inside : frame < maxpages) :
    p2v (frame * pgsize) = frame * 4096 + 0x80000000 := by
  have stop : phystop = 0xE000000 := rfl
  have size : pgsize = 4096 := rfl
  have base : kernbase = 0x80000000 := rfl
  have count : maxpages = 57344 := by decide
  rw [size]
  rw [p2v_small (by omega), base]

theorem mem_range_pages {vstart vend va : Nat} : va ∈ rangePages vstart vend ↔
    va % 4096 = 0 ∧ vstart ≤ va ∧ va + 4096 ≤ vend := by
  have size : pgsize = 4096 := rfl
  simp only [rangePages, pgroundup, size, List.mem_map, List.mem_range]
  constructor
  · rintro ⟨i, below, rfl⟩
    omega
  · rintro ⟨aligned, lower, upper⟩
    exact ⟨(va - (vstart + 4096 - 1) / 4096 * 4096) / 4096, by omega, by omega⟩

theorem boot_addresses : p2v mappedAtBoot = 0x80400000 ∧ p2v phystop = 0x8E000000 := by
  have stop : phystop = 0xE000000 := rfl
  have base : kernbase = 0x80000000 := rfl
  have mapped : mappedAtBoot = 0x400000 := rfl
  rw [p2v_small (by omega), p2v_small le_rfl]
  omega

theorem link_bounds (link : Link) :
    0x80100000 ≤ link.runs ∧ link.runs + 8 * 57344 ≤ link.kernelEnd ∧
    link.kernelEnd ≤ 0x80400000 := by
  have count : maxpages = 57344 := by decide
  refine ⟨link.afterLink, ?_, link.endMapped⟩
  have before := link.beforeEnd
  rw [count] at before
  exact before

theorem mem_pages_iff (link : Link) (va : Nat) :
    va ∈ pages link ↔ va % 4096 = 0 ∧ link.kernelEnd ≤ va ∧ va < 0x8E000000 := by
  obtain ⟨mapped, stop⟩ := boot_addresses
  obtain ⟨-, -, high⟩ := link_bounds link
  rw [pages, List.mem_append, mem_range_pages, mem_range_pages, mapped, stop]
  omega

theorem mem_pages_frame (link : Link) (va : Nat) :
    va ∈ pages link ↔ ∃ frame, InRange link frame ∧ va = p2v (frame * pgsize) := by
  have count : maxpages = 57344 := by decide
  obtain ⟨low, upTo, -⟩ := link_bounds link
  rw [mem_pages_iff]
  constructor
  · rintro ⟨aligned, lower, upper⟩
    have inside : (va - 0x80000000) / 4096 < maxpages := by omega
    refine ⟨(va - 0x80000000) / 4096, ⟨?_, inside⟩, ?_⟩
    · rw [page_address inside]
      omega
    · rw [page_address inside]
      omega
  · rintro ⟨frame, ⟨lower, inside⟩, rfl⟩
    rw [page_address inside] at lower ⊢
    omega

variable {link : Link} {k : Kmem} {m : Mem}

theorem page_address_injective {left right : Nat} (leftIn : left < maxpages)
    (rightIn : right < maxpages) (same : p2v (left * pgsize) = p2v (right * pgsize)) :
    left = right := by
  rw [page_address leftIn, page_address rightIn] at same
  omega

/-- The list behind the chain is the frames of some pages, each once, and no reference
is counted. -/
structure Fresh (link : Link) (m : Mem) (done : List Nat) : Prop where
  once : m.freelist.Nodup
  frames : ∀ frame, frame ∈ m.freelist ↔ InRange link frame ∧ p2v (frame * pgsize) ∈ done
  unused : ∀ frame, m.refCount frame = 0

structure State where
  kmem : Kmem
  /-- The pages that `kalloc` returned and that have not been freed since. -/
  allocated : Finset Nat

inductive Action where
  | kalloc
  | kfree (v : Nat)

def step (link : Link) (state : State) : Action → Option State
  | .kalloc =>
    match kalloc link state.kmem with
    | .ok (va, k) => some ⟨k, insert va state.allocated⟩
    | .error _ => none
  | .kfree v =>
    match kfree link state.kmem v with
    | .ok k => some ⟨k, state.allocated.erase v⟩
    | .error _ => none

structure Divided (link : Link) (m : Mem) (allocated : Finset Nat) : Prop where
  once : m.freelist.Nodup
  free : ∀ frame, frame ∈ m.freelist ↔ InRange link frame ∧ p2v (frame * pgsize) ∉ allocated
  inside : ∀ va ∈ allocated, va ∈ pages link
  counts : ∀ frame, InRange link frame → p2v (frame * pgsize) ∈ allocated → m.refCount frame = 1
  unused : ∀ frame ∈ m.freelist, m.refCount frame = 0

theorem Divided.kalloc {allocated : Finset Nat} (divided : Divided link m allocated)
    {rest : List Nat} (list : m.freelist = frame :: rest) :
    Divided link (pop m frame rest) (insert (p2v (frame * pgsize)) allocated) := by
  have once := divided.once
  rw [list] at once
  obtain ⟨notLater, restOnce⟩ := List.nodup_cons.mp once
  obtain ⟨range, -⟩ := (divided.free frame).mp (by rw [list]; exact .head _)
  have unused : m.refCount frame = 0 := divided.unused frame (by rw [list]; exact .head _)
  refine ⟨restOnce, ?_, ?_, ?_, ?_⟩
  · intro other
    have before := divided.free other
    rw [list, List.mem_cons] at before
    rw [Kalloc.pop_freelist, Finset.mem_insert, not_or]
    constructor
    · intro member
      obtain ⟨otherRange, outside⟩ := before.mp (.inr member)
      refine ⟨otherRange, ?_, outside⟩
      intro same
      rw [page_address_injective otherRange.2 range.2 same] at member
      exact notLater member
    · rintro ⟨otherRange, different, outside⟩
      rcases before.mpr ⟨otherRange, outside⟩ with rfl | member
      · exact absurd rfl different
      · exact member
  · intro va member
    rcases Finset.mem_insert.mp member with rfl | old
    · exact (mem_pages_frame link _).mpr ⟨frame, range, rfl⟩
    · exact divided.inside va old
  · intro other otherRange member
    rw [Kalloc.pop_ref_count]
    by_cases same : other = frame
    · rw [same, update_self, unused]
      rfl
    · rw [update_of_ne same]
      rcases Finset.mem_insert.mp member with equal | old
      · exact absurd (page_address_injective otherRange.2 range.2 equal) same
      · exact divided.counts other otherRange old
  · intro other member
    have different : other ≠ frame := by
      rintro rfl
      exact notLater member
    rw [Kalloc.pop_ref_count, update_of_ne different]
    exact divided.unused other (by rw [list]; exact .tail _ member)

theorem Divided.kfree {allocated : Finset Nat} (divided : Divided link m allocated)
    (range : InRange link frame) (member : p2v (frame * pgsize) ∈ allocated) :
    Divided link (drop m frame) (allocated.erase (p2v (frame * pgsize))) := by
  have last := divided.counts frame range member
  have absent : frame ∉ m.freelist := fun free => ((divided.free frame).mp free).2 member
  have list := Kalloc.drop_freelist_last m frame last
  have counts := Kalloc.drop_ref_count m frame
  refine ⟨?_, ?_, ?_, ?_, ?_⟩
  · rw [list]
    exact List.nodup_cons.mpr ⟨absent, divided.once⟩
  · intro other
    rw [list, List.mem_cons, divided.free other, Finset.mem_erase]
    constructor
    · rintro (rfl | ⟨otherRange, outside⟩)
      · exact ⟨range, fun both => both.1 rfl⟩
      · exact ⟨otherRange, fun both => outside both.2⟩
    · rintro ⟨otherRange, outside⟩
      by_cases same : other = frame
      · exact .inl same
      · right
        refine ⟨otherRange, fun old => outside ⟨?_, old⟩⟩
        exact fun equal => same (page_address_injective otherRange.2 range.2 equal)
  · intro va old
    exact divided.inside va (Finset.mem_of_mem_erase old)
  · intro other otherRange old
    have different : other ≠ frame := by
      rintro rfl
      exact (Finset.mem_erase.mp old).1 rfl
    rw [counts, update_of_ne different]
    exact divided.counts other otherRange (Finset.mem_of_mem_erase old)
  · intro other free
    rw [list, List.mem_cons] at free
    rw [counts]
    by_cases same : other = frame
    · rw [same, update_self, last]
      rfl
    · rw [update_of_ne same]
      exact divided.unused other (free.resolve_left same)

end Xv6Hacks.PageRuns
