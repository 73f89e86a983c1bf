import Xv6Hacks.PageTables

/-!
# User address spaces

The second half of `vm.c`: growing, shrinking, copying, sharing and freeing the user
part of an address space. A size is a number of bytes, and `pagesUp` is the number of
pages it needs. A page directory is its frame, so the null directory of `freevm`'s first
check does not occur.
-/

namespace Xv6Hacks.AddressSpace

open ByteBuffers Kalloc PageTables

/-- `PGROUNDUP(sz) / PGSIZE`. -/
def pagesUp (sz : Nat) : Nat := (sz + (pgsize - 1)) / pgsize

def mapPage (b : Build) (m : Mem) (pgdir n frame : Nat) (perm : Pte) : Except Stop (Bool × Mem) :=
  mappages b m pgdir (n * pgsize) pgsize (frame * pgsize) perm

theorem map_page_eq (b : Build) (m : Mem) (pgdir n frame : Nat) (perm : Pte) (inside : n < vpages) :
    mapPage b m pgdir n frame perm = mapLoop b pgdir perm 1 n frame m := by
  have loop := mappages_eq b m pgdir n 1 frame perm (by decide) inside
  rwa [Nat.one_mul] at loop

theorem map_page_existing {b : Build} {m : Mem} {pgdir n table index : Nat} (frame : Nat)
    (perm : Pte) (inside : n < vpages) (found : findPte m pgdir n = some (table, index))
    (absent : has (readEntry m table index) pteP = false) : mapPage b m pgdir n frame perm =
    .ok (true, writeEntry m table index (makePte frame perm)) := by
  rw [map_page_eq b m pgdir n frame perm inside]
  simp only [mapLoop, walkpgdir, found, absent, bind, Except.bind, Bool.false_eq_true, ↓reduceIte]

/-- The loop of `deallocuvm` from page `n` on. A missing page table skips 1024 pages,
from wherever the loop stands. -/
def deallocLoop (b : Build) (pgdir last n : Nat) (m : Mem) : Except Stop Mem :=
  if n < last then
    match findPte m pgdir n with
    | none => deallocLoop b pgdir last (n + nptentries) m
    | some (table, index) =>
      let pte := readEntry m table index
      if has pte pteP then
        if pteFrame pte = 0 then .error .kfree
        else do
          let m ← kfree b m (pteFrame pte)
          deallocLoop b pgdir last (n + 1) (writeEntry m table index 0)
      else deallocLoop b pgdir last (n + 1) m
  else .ok m
termination_by last - n
decreasing_by
  · simp only [nptentries]
    omega
  · omega
  · omega

def deallocuvm (b : Build) (m : Mem) (pgdir oldsz newsz : Nat) : Except Stop (Nat × Mem) :=
  if oldsz ≤ newsz then .ok (oldsz, m)
  else do
    let m ← deallocLoop b pgdir (pagesUp oldsz) (pagesUp newsz) m
    .ok (newsz, m)

def freeTable (b : Build) (pgdir : Nat) (m : Mem) (index : Nat) : Except Stop Mem :=
  let pde := readEntry m pgdir index
  if has pde pteP then kfree b m (pteFrame pde) else .ok m

def freevm (b : Build) (m : Mem) (pgdir : Nat) : Except Stop Mem := do
  let (_, m) ← deallocuvm b m pgdir kernbase 0
  let m ← (List.range npdentries).foldlM (freeTable b pgdir) m
  kfree b m pgdir

/-- The loop of `allocuvm`; the result of `mappages` is not looked at. -/
def allocLoop (b : Build) (pgdir : Nat) : Nat → Nat → Mem → Except Stop (Bool × Mem)
  | 0, _, m => .ok (true, m)
  | count + 1, n, m => do
    match ← kalloc b m with
    | (none, m) => .ok (false, m)
    | (some mem, m) =>
      let (_, m) ← mapPage b (memset m mem 0) pgdir n mem (pteW ||| pteU)
      allocLoop b pgdir count (n + 1) m

def allocuvm (b : Build) (m : Mem) (pgdir oldsz newsz : Nat) : Except Stop (Nat × Mem) :=
  if kernbase ≤ newsz then .ok (0, m)
  else if newsz < oldsz then .ok (oldsz, m)
  else do
    match ← allocLoop b pgdir (pagesUp newsz - pagesUp oldsz) (pagesUp oldsz) m with
    | (true, m) => .ok (newsz, m)
    | (false, m) =>
      let (_, m) ← deallocuvm b m pgdir newsz oldsz
      .ok (0, m)

-- Evaluating the first comparison on a variable would count up to `KERNBASE`.
attribute [irreducible] allocuvm

def inituvm (b : Build) (m : Mem) (pgdir : Nat) (init : List Byte) : Except Stop Mem :=
  if pgsize ≤ init.length then .error .moreThanAPage
  else do
    match ← kalloc b m with
    | (none, _) => .error .nullPage
    | (some mem, m) =>
      let (_, m) ← mapPage b (memset m mem 0) pgdir 0 mem (pteW ||| pteU)
      .ok (setPage m mem (copyInto (m.page mem) 0 init))

def clearpteu (m : Mem) (pgdir n : Nat) : Except Stop Mem :=
  match findPte m pgdir n with
  | none => .error .clearpteu
  | some (table, index) =>
    .ok (writeEntry m table index (readEntry m table index &&& ~~~ pteU))

/-- The entry of page `n` that `copyuvm` and `cowuvm` go on with. -/
def sourcePte (m : Mem) (pgdir n : Nat) : Except Stop Pte :=
  match findPte m pgdir n with
  | none => .error .pteShouldExist
  | some (table, index) =>
    let pte := readEntry m table index
    if has pte pteP then .ok pte else .error .pageNotPresent

def copyLoop (b : Build) (pgdir d : Nat) : Nat → Nat → Mem → Except Stop (Bool × Mem)
  | 0, _, m => .ok (true, m)
  | count + 1, n, m => do
    let pte ← sourcePte m pgdir n
    match ← kalloc b m with
    | (none, m) => .ok (false, m)
    | (some mem, m) =>
      let m := setPage m mem (m.page (pteFrame pte))
      match ← mapPage b m d n mem (pteFlags pte) with
      | (false, m) => .ok (false, m)
      | (true, m) => copyLoop b pgdir d count (n + 1) m

def copyuvm (b : Build) (m : Mem) (pgdir sz : Nat) : Except Stop (Option Nat × Mem) := do
  match ← setupkvm b m with
  | (none, m) => .ok (none, m)
  | (some d, m) =>
    match ← copyLoop b pgdir d (pagesUp sz) 0 m with
    | (true, m) => .ok (some d, m)
    | (false, m) =>
      let m ← freevm b m d
      .ok (none, m)

def cowFlags (pte : Pte) : Pte := (pteFlags pte ||| pteCow) &&& ~~~ (pteW ||| pteP)

/-- The loop of `cowuvm`. The parent's entry is left as it is. After a failed
`mappages` the loop goes on with a null directory. -/
def cowLoop (b : Build) (pgdir : Nat) :
    Nat → Nat → Option Nat → Mem → Except Stop (Option Nat × Mem)
  | 0, _, d, m => .ok (d, m)
  | count + 1, n, d, m => do
    let pte ← sourcePte m pgdir n
    let m ← incRefCount m (p2v (pteFrame pte * pgsize))
    match d with
    | none => .error .nullPage
    | some d =>
      match ← mapPage b m d n (pteFrame pte) (cowFlags pte) with
      | (true, m) => cowLoop b pgdir count (n + 1) (some d) m
      | (false, m) =>
        let m ← freevm b m d
        cowLoop b pgdir count (n + 1) none m

def cowuvm (b : Build) (m : Mem) (pgdir sz : Nat) : Except Stop (Option Nat × Mem) := do
  match ← setupkvm b m with
  | (none, m) => .ok (none, m)
  | (some d, m) => cowLoop b pgdir (pagesUp sz) 0 (some d) m

/-- The kernel's address of user page `n`, or 0. -/
def uva2ka (m : Mem) (pgdir n : Nat) : Except Stop Nat :=
  match findPte m pgdir n with
  | none => .error .nullPte
  | some (table, index) =>
    let pte := readEntry m table index
    if has pte pteP = false then .ok 0
    else if has pte pteU = false then .ok 0
    else .ok (p2v (pteFrame pte * pgsize))

theorem page_room (va : Nat) : 0 < pgsize - va % pgsize := by
  simp only [pgsize]
  omega

/-- `false` stands for -1. -/
def copyout (m : Mem) (pgdir va : Nat) (bytes : List Byte) : Except Stop (Bool × Mem) :=
  if bytes = [] then .ok (true, m)
  else do
    let pa0 ← uva2ka m pgdir (va / pgsize)
    if pa0 = 0 then .ok (false, m)
    else
      let n := min bytes.length (pgsize - va % pgsize)
      let frame := v2p pa0 / pgsize
      let m := setPage m frame (copyInto (m.page frame) (va % pgsize) (bytes.take n))
      copyout m pgdir ((va / pgsize * pgsize + pgsize) % 2 ^ 32) (bytes.drop n)
termination_by bytes.length
decreasing_by
  have room := page_room va
  have nonempty := List.length_pos_iff.mpr ‹bytes ≠ []›
  simp only [List.length_drop]
  omega

end Xv6Hacks.AddressSpace
