import Xv6Hacks.Kalloc
import Mathlib.Data.Nat.Bitwise

/-!
# Page tables

The first half of `vm.c`: page directory and page table entries, `walkpgdir`,
`mappages` and the kernel part of every address space. Virtual addresses appear as
page numbers, the address divided by `PGSIZE`, because every loop of `vm.c` runs over
whole pages. Entries are the 32-bit words found in the pages themselves.
-/

namespace Xv6Hacks.PageTables

open ByteBuffers Function Kalloc

abbrev Pte := BitVec 32

def pteP : Pte := 0x001

def pteW : Pte := 0x002

def pteU : Pte := 0x004

def pteCow : Pte := 0x800

/-- `*pte & flag`. -/
def has (pte flag : Pte) : Bool := pte &&& flag != 0

/-- `PTE_ADDR(pte)` as a frame number. -/
def pteFrame (pte : Pte) : Nat := pte.toNat / pgsize

def pteFlags (pte : Pte) : Pte := pte &&& 0xFFF

/-- `pa | perm | PTE_P`. -/
def makePte (frame : Nat) (perm : Pte) : Pte := BitVec.ofNat 32 (frame * pgsize) ||| perm ||| pteP

def nptentries : Nat := 1024

def npdentries : Nat := 1024

def vpages : Nat := npdentries * nptentries

def userPages : Nat := kernbase / pgsize

def pdx (n : Nat) : Nat := n / nptentries % npdentries

def ptx (n : Nat) : Nat := n % nptentries

def readEntry (m : Mem) (table index : Nat) : Pte :=
  BitVec.ofNat 32 (readLE (m.page table) (4 * index) 4)

def writeEntry (m : Mem) (table index : Nat) (pte : Pte) : Mem :=
  setPage m table (writeLE (m.page table) (4 * index) 4 pte.toNat)

/-- `walkpgdir` without `alloc`: the page table and the index of the entry in it. -/
def findPte (m : Mem) (pgdir n : Nat) : Option (Nat × Nat) :=
  let pde := readEntry m pgdir (pdx n)
  if has pde pteP then some (pteFrame pde, ptx n) else none

/-- `walkpgdir` with `alloc`. -/
def walkpgdir (b : Build) (m : Mem) (pgdir n : Nat) : Except Stop (Option (Nat × Nat) × Mem) :=
  match findPte m pgdir n with
  | some slot => .ok (some slot, m)
  | none => do
    match ← kalloc b m with
    | (none, m) => .ok (none, m)
    | (some pgtab, m) =>
      let m := memset m pgtab 0
      let m := writeEntry m pgdir (pdx n) (makePte pgtab (pteW ||| pteU))
      .ok (some (pgtab, ptx n), m)

/-- The loop of `mappages` over `count` pages; `false` stands for -1. -/
def mapLoop (b : Build) (pgdir : Nat) (perm : Pte) :
    Nat → Nat → Nat → Mem → Except Stop (Bool × Mem)
  | 0, _, _, m => .ok (true, m)
  | count + 1, n, frame, m => do
    match ← walkpgdir b m pgdir n with
    | (none, m) => .ok (false, m)
    | (some (table, index), m) =>
      if has (readEntry m table index) pteP then .error .remap
      else
        mapLoop b pgdir perm count ((n + 1) % vpages) (frame + 1)
          (writeEntry m table index (makePte frame perm))

/-- `pa` is page-aligned in every call. -/
def mappages (b : Build) (m : Mem) (pgdir va size pa : Nat) (perm : Pte) :
    Except Stop (Bool × Mem) :=
  let first := va / pgsize
  let last := (va + size + (2 ^ 32 - 1)) % 2 ^ 32 / pgsize
  mapLoop b pgdir perm ((last + vpages - first) % vpages + 1) first (pa / pgsize) m

theorem vpages_value : vpages = 1048576 := by decide

theorem frame_in_space {frame : Nat} (inside : frame < maxpages) : frame < vpages :=
  inside.trans_le (by decide)

theorem mappages_eq (b : Build) (m : Mem) (pgdir first count frame : Nat) (perm : Pte)
    (nonempty : 0 < count) (top : first + count ≤ vpages) :
    mappages b m pgdir (first * pgsize) (count * pgsize) (frame * pgsize) perm =
    mapLoop b pgdir perm count first frame m := by
  have start : first * pgsize / pgsize = first := Nat.mul_div_cancel first (by decide)
  rw [vpages_value] at top
  have last : (first * pgsize + count * pgsize + (2 ^ 32 - 1)) % 2 ^ 32 / pgsize =
      first + count - 1 := by
    simp only [pgsize]
    omega
  have length : (first + count - 1 + vpages - first) % vpages + 1 = count := by
    rw [vpages_value]
    omega
  rw [mappages, start, last, length, Nat.mul_div_cancel frame (by decide)]

structure Kmap where
  virt : Nat
  physStart : Nat
  physEnd : Nat
  perm : Pte

def kmap (b : Build) : List Kmap :=
  [⟨kernbase, 0, extmem, pteW⟩, ⟨kernlink, extmem, b.dataFrame * pgsize, 0⟩,
    ⟨p2v (b.dataFrame * pgsize), b.dataFrame * pgsize, phystop, pteW⟩,
    ⟨devspace, devspace, 0, pteW⟩]

def mapRows (b : Build) (pgdir : Nat) : List Kmap → Mem → Except Stop (Bool × Mem)
  | [], m => .ok (true, m)
  | k :: rest, m => do
    let size := (k.physEnd + 2 ^ 32 - k.physStart) % 2 ^ 32
    match ← mappages b m pgdir k.virt size k.physStart k.perm with
    | (false, m) => .ok (false, m)
    | (true, m) => mapRows b pgdir rest m

/-- `PHYSTOP` is below `DEVSPACE`, so its check never fires. -/
def setupkvm (b : Build) (m : Mem) : Except Stop (Option Nat × Mem) := do
  match ← kalloc b m with
  | (none, m) => .ok (none, m)
  | (some pgdir, m) =>
    match ← mapRows b pgdir (kmap b) (memset m pgdir 0) with
    | (false, m) => .ok (none, m)
    | (true, m) => .ok (some pgdir, m)

/-- The entry of page `n`, zero if there is no page table. -/
def entry (m : Mem) (pgdir n : Nat) : Pte :=
  match findPte m pgdir n with
  | none => 0
  | some (table, index) => readEntry m table index

section Bits
variable {frame : Nat} {perm : Pte}

theorem make_pte_nat (inside : frame < vpages) (flags : perm.toNat < pgsize) :
    (makePte frame perm).toNat = frame * pgsize + (perm ||| pteP).toNat := by
  have sum : (perm ||| pteP).toNat < 2 ^ 12 := by
    rw [BitVec.toNat_or]
    exact Nat.or_lt_two_pow flags (by decide)
  have shifted : frame * pgsize = frame <<< 12 := by
    rw [Nat.shiftLeft_eq]
    rfl
  have fits : frame * pgsize < 2 ^ 32 := by
    simp only [vpages, npdentries, nptentries, pgsize] at inside ⊢
    omega
  rw [makePte, BitVec.or_assoc, BitVec.toNat_or, BitVec.toNat_ofNat, Nat.mod_eq_of_lt fits, shifted,
    ← Nat.shiftLeft_add_eq_or_of_lt sum]

theorem make_pte_frame (inside : frame < vpages) (flags : perm.toNat < pgsize) :
    pteFrame (makePte frame perm) = frame := by
  have sum : (perm ||| pteP).toNat < 2 ^ 12 := by
    rw [BitVec.toNat_or]
    exact Nat.or_lt_two_pow flags (by decide)
  rw [pteFrame, make_pte_nat inside flags]
  simp only [pgsize] at *
  omega

theorem has_two_pow (pte : Pte) (bit : Nat) (inside : bit < 32) :
    has pte (BitVec.twoPow 32 bit) = pte.getLsbD bit := by
  have nonzero : BitVec.twoPow 32 bit ≠ 0#32 := by
    intro zero
    have value := congrArg (fun word => word.getLsbD bit) zero
    simp [inside] at value
  rw [has, BitVec.and_twoPow]
  cases pte.getLsbD bit with
  | false => rfl
  | true => simp [nonzero]

theorem has_present (pte : Pte) : has pte pteP = pte.getLsbD 0 :=
  has_two_pow pte 0 (by decide)

theorem has_write (pte : Pte) : has pte pteW = pte.getLsbD 1 :=
  has_two_pow pte 1 (by decide)

theorem has_user (pte : Pte) : has pte pteU = pte.getLsbD 2 :=
  has_two_pow pte 2 (by decide)

theorem has_cow (pte : Pte) : has pte pteCow = pte.getLsbD 11 :=
  has_two_pow pte 11 (by decide)

theorem make_pte_bit (bit : Nat) (low : bit < 12) :
    (makePte frame perm).getLsbD bit = (perm.getLsbD bit || decide (bit = 0)) := by
  have address : (BitVec.ofNat 32 (frame * pgsize)).getLsbD bit = false := by
    have shifted : frame * pgsize = frame <<< 12 := by
      rw [Nat.shiftLeft_eq]
      rfl
    rw [BitVec.getLsbD_ofNat, shifted, Nat.testBit_shiftLeft]
    simp [low]
  have present : pteP.getLsbD bit = decide (bit = 0) := by
    rw [pteP, BitVec.ofNat_eq_ofNat, BitVec.getLsbD_one]
    simp
  rw [makePte, BitVec.getLsbD_or, BitVec.getLsbD_or, address, present, Bool.false_or]

theorem make_pte_present : has (makePte frame perm) pteP = true := by
  rw [has_present, make_pte_bit 0 (by decide)]
  simp

theorem pte_flags_bit (pte : Pte) (bit : Nat) (low : bit < 12) :
    (pteFlags pte).getLsbD bit = pte.getLsbD bit := by
  have mask : (0xFFF#32).getLsbD bit = true := by
    interval_cases bit <;> rfl
  rw [pteFlags, BitVec.ofNat_eq_ofNat, BitVec.getLsbD_and, mask, Bool.and_true]

theorem pte_flags_small (pte : Pte) : (pteFlags pte).toNat < pgsize := by
  rw [pteFlags, BitVec.toNat_and]
  exact Nat.lt_of_le_of_lt Nat.and_le_right (by decide)

theorem small_or {left right : Pte} (first : left.toNat < pgsize) (second : right.toNat < pgsize) :
    (left ||| right).toNat < pgsize := by
  rw [BitVec.toNat_or]
  exact Nat.or_lt_two_pow (show left.toNat < 2 ^ 12 from first) second

theorem small_and {left : Pte} (right : Pte) (first : left.toNat < pgsize) :
    (left &&& right).toNat < pgsize := by
  rw [BitVec.toNat_and]
  exact Nat.lt_of_le_of_lt Nat.and_le_left first

end Bits

section Entries
variable (m : Mem) (table index : Nat) (pte : Pte)

@[simp] theorem write_entry_freelist : (writeEntry m table index pte).freelist = m.freelist := rfl

@[simp] theorem write_entry_ref_count : (writeEntry m table index pte).refCount = m.refCount := rfl

theorem write_entry_page (other : Nat) (different : other ≠ table) :
    (writeEntry m table index pte).page other = m.page other :=
  set_page_other m table other _ different

theorem read_write_entry : readEntry (writeEntry m table index pte) table index = pte := by
  have width : 256 ^ 4 = 2 ^ 32 := by decide
  rw [readEntry, writeEntry, set_page_same, read_le_write_same, width,
    Nat.mod_eq_of_lt pte.isLt, BitVec.ofNat_toNat, BitVec.setWidth_eq]

theorem read_write_entry_index (other : Nat) (different : other ≠ index) :
    readEntry (writeEntry m table index pte) table other = readEntry m table other := by
  rw [readEntry, writeEntry, set_page_same, read_le_write_apart _ _ _ _ _ _ (by omega), readEntry]

theorem read_entry_congr {left right : Mem} (same : left.page table = right.page table) :
    readEntry left table index = readEntry right table index := by
  rw [readEntry, readEntry, same]

theorem read_write_entry_table (other slot : Nat) (different : other ≠ table) :
    readEntry (writeEntry m table index pte) other slot = readEntry m other slot :=
  read_entry_congr other slot (write_entry_page m table index pte other different)

theorem read_zero_page (zero : m.page table = fun _ => 0) : readEntry m table index = 0 := by
  simp [readEntry, zero, readLE]

theorem find_pte_congr {left right : Mem} {pgdir : Nat} (n : Nat)
    (same : left.page pgdir = right.page pgdir) : findPte left pgdir n = findPte right pgdir n := by
  rw [findPte, findPte, read_entry_congr pgdir (pdx n) same]

theorem entry_found {pgdir n : Nat} (found : findPte m pgdir n = some (table, index)) :
    entry m pgdir n = readEntry m table index := by
  rw [entry, found]

theorem write_write_entry (first : Pte) :
    writeEntry (writeEntry m table index first) table index pte = writeEntry m table index pte := by
  have content : writeLE (writeLE (m.page table) (4 * index) 4 first.toNat) (4 * index) 4 pte.toNat =
      writeLE (m.page table) (4 * index) 4 pte.toNat := by
    funext off
    simp only [writeLE]
    split
    · rfl
    · rfl
  simp only [writeEntry, setPage, update_self, update_idem, content]

end Entries
end Xv6Hacks.PageTables
