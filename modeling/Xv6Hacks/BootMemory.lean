import Xv6Hacks.SpaceTeardown
import Xv6Hacks.UserSpaces

/-!
# Physical memory at boot

`kinit1` and `kinit2` put the pages they are given on the free list. Before them no page
belongs to the allocator; after both every page from `end` to `PHYSTOP` does.
-/

namespace Xv6Hacks.BootMemory

open Function
open AddressSpace ByteBuffers Kalloc PageOwnership PageTables SpaceGrowth
open UserSpaces

/-- `kmem` is zero when the kernel starts, whatever the rest of the memory holds. -/
def bootMem (page : Nat → Buffer) : Mem :=
  { page := page, freelist := [], refCount := fun _ => 0 }

theorem boot_mem_owned (b : Build) (page : Nat → Buffer) :
    Owned b (fun _ => .outside) none (bootMem page) where
  inside := fun _ role => absurd rfl role
  free := fun frame => by simp [bootMem]
  once := List.nodup_nil
  held := fun _ held => by contradiction
  linked := fun _ _ dir => by contradiction
  tables := fun _ _ _ label => by contradiction
  mapped := fun _ _ dir => by contradiction
  used := fun _ user => by contradiction
  counted := fun _ role => absurd rfl role

def donated (κ : Nat → Kind) (first count : Nat) : Nat → Kind := fun frame =>
  if first ≤ frame ∧ frame < first + count then .free else κ frame

theorem donated_zero (κ : Nat → Kind) (first : Nat) : donated κ first 0 = κ := by
  funext frame
  rw [donated, if_neg (by omega)]

theorem donated_succ (κ : Nat → Kind) (first count : Nat) :
    donated (update κ first .free) (first + 1) count = donated κ first (count + 1) := by
  funext frame
  simp only [donated]
  by_cases here : frame = first
  · rw [if_neg (by omega), if_pos (by omega), here, update_self]
  · rw [update_of_ne here]
    by_cases inside : first + 1 ≤ frame ∧ frame < first + 1 + count
    · rw [if_pos inside, if_pos (by omega)]
    · rw [if_neg inside, if_neg (by omega)]

section Donating
variable {b : Build} (counting : b.original = false)
include counting

theorem kfree_sys_fresh {m : Mem} {frame : Nat} (unused : m.refCount frame = 0)
    (lower : b.endFrame ≤ frame) (upper : frame < maxpages) :
    kfreeSys b m frame = .ok (push (memset m frame 1) frame) := by
  have inside : ¬ (frame < b.endFrame ∨ maxpages ≤ frame) := by omega
  have same : (memset m frame 1).refCount = m.refCount := rfl
  simp only [kfreeSys, kfreePage, if_neg inside, counting, same, unused, Bool.false_eq_true,
    ↓reduceIte]

theorem freerange_spec {κ : Nat → Kind} {m : Mem} (owned : Owned b κ none m) (first count : Nat)
    (nobody : ∀ frame, first ≤ frame → frame < first + count →
    κ frame = .outside ∧ m.refCount frame = 0) (lower : b.endFrame ≤ first)
    (upper : first + count ≤ maxpages) : ∃ m', freerange b m first (first + count) = .ok m' ∧
    Owned b (donated κ first count) none m' ∧ m'.refCount = m.refCount ∧
    m'.freelist.length = m.freelist.length + count := by
  rw [freerange, Nat.add_sub_cancel_left]
  induction count generalizing κ m first with
  | zero =>
    rw [donated_zero]
    exact ⟨m, rfl, owned, rfl, rfl⟩
  | succ count ih =>
    obtain ⟨outside, unused⟩ := nobody first le_rfl (by omega)
    have donation := owned.donate outside unused ⟨lower, by omega⟩
    have rest (frame : Nat) (above : first + 1 ≤ frame) (below : frame < first + 1 + count) :
        update κ first .free frame = .outside ∧
          (push (memset m first 1) first).refCount frame = 0 := by
      rw [update_of_ne (by omega)]
      exact nobody frame (by omega) (by omega)
    obtain ⟨m', freed, owned', counts, length⟩ := ih donation (first + 1) rest (by omega) (by omega)
    rw [donated_succ] at owned'
    refine ⟨m', ?_, owned', counts, ?_⟩
    · rw [List.range'_succ, List.foldlM_cons,
        kfree_sys_fresh counting unused lower (by omega)]
      exact freed
    · rw [length, push_freelist, List.length_cons, memset, set_page_freelist]
      omega

theorem memory_free (page : Nat → Buffer) :
    ∃ κ m, Owned b κ none m ∧ m.freelist.length = maxpages - b.endFrame := by
  have below : b.endFrame ≤ maxpages := b.endMapped.trans (by decide)
  rcases freerange_spec counting (boot_mem_owned b page) b.endFrame (maxpages - b.endFrame)
    (fun _ _ _ => ⟨rfl, rfl⟩) le_rfl (by omega) with ⟨m, -, owned, -, length⟩
  refine ⟨_, m, owned, ?_⟩
  rw [length]
  exact Nat.zero_add _

variable (strict : b.kallocNull = false)
include strict

theorem new_directory {κ : Nat → Kind} {m : Mem} (owned : Owned b κ none m)
    (enough : 65 ≤ m.freelist.length) :
    ∃ κ' m' d, setupkvm b m = .ok (some d, m') ∧ Owned b κ' none m' ∧ κ d = .free ∧
    κ' d = .pgdir ∧ Grows d κ m κ' m' ∧ (∀ n, n < userPages → entry m' d n = 0) ∧
    m.freelist.length ≤ m'.freelist.length + 65 := by
  obtain ⟨⟨made, m'⟩, returned, d, κ', same, fresh, dir, owned', grows, mapped, -, cost⟩ :=
    (setupkvm_spec counting strict owned).returns (by rintro stop ⟨-, short⟩; omega)
  cases same
  exact ⟨κ', m', d, returned, owned', fresh, dir, grows, mapped.1, cost⟩

/-- The memory with two address spaces: one without user pages, and that of a process with
one page, which holds the given bytes. -/
theorem first_process {init : List Byte} (short : init.length < pgsize) :
    ∃ κ m spare pgdir frame, Owned b κ none m ∧ κ spare = .pgdir ∧ κ pgdir = .pgdir ∧
    spare ≠ pgdir ∧ (∀ n, n < userPages → entry m spare n = 0) ∧ Sized m pgdir pgsize ∧
    κ frame = .user ∧ entry m pgdir 0 = makePte frame (pteW ||| pteU) ∧
    m.page frame = copyInto (fun _ => 0) 0 init ∧ 1000 < m.freelist.length := by
  obtain ⟨κ, m, owned, length⟩ := memory_free counting (fun _ _ => 0)
  have many : 56320 ≤ m.freelist.length := by
    have low := b.endMapped
    rw [length, maxpages_value]
    omega
  obtain ⟨κ1, m1, spare, -, owned1, -, spareDir, -, spareEmpty, cost1⟩ :=
    new_directory counting strict owned (by omega)
  obtain ⟨κ2, m2, pgdir, -, owned2, fresh, dir, grows2, empty, cost2⟩ :=
    new_directory counting strict owned1 (by omega)
  have apart : spare ≠ pgdir := label_ne spareDir fresh nofun
  rcases (inituvm_spec counting strict owned2 dir short (empty 0 (by decide))).returns
    (by rintro stop ⟨-, few⟩; omega) with
    ⟨m3, -, κ3, frame, owned3, grows3, -, user, entries, content, cost3⟩
  have spareDir2 := grows2.label spareDir nofun
  have first : entry m3 pgdir 0 = makePte frame (pteW ||| pteU) := by
    rw [entries 0 (by decide), if_pos rfl]
  refine ⟨κ3, m3, spare, pgdir, frame, owned3, ?_, ?_, apart, ?_, ?_, user, first, content, ?_⟩
  · exact grows3.label spareDir2 nofun
  · exact grows3.label dir nofun
  · intro n inside
    rw [(grows3.others spare apart spareDir2).2 n, (grows2.others spare apart spareDir).2 n]
    exact spareEmpty n inside
  · have one : pagesUp pgsize = 1 := by decide
    refine ⟨by decide, ?_, ?_⟩
    · intro n above inside
      rw [entries n (user_page_inside inside), if_neg (by omega)]
      exact empty n inside
    · intro n below
      have zero : n = 0 := by omega
      apply pde_of_entry
      rw [zero, first]
      intro none
      have present : has (makePte frame (pteW ||| pteU)) pteP = true := make_pte_present
      rw [none] at present
      contradiction
  · omega

end Donating
end Xv6Hacks.BootMemory
