import Xv6Hacks.BootMemory
import Xv6Hacks.Exec
import Xv6Hacks.PageFault
import Xv6Hacks.ProcTable

/-!
# The memory of all processes

The process table with the kernel stack, the page directory and the size of each
process, and the calls that allocate and free pages: `fork`, write faults, `growproc`,
`exec`, `exit` and `wait`, each taken as one step. Sleeping, runnable and running
processes are all alive; an embryo exists inside `fork` only. `main` runs up to
`userinit`.
-/

namespace Xv6Hacks.ProcessMemory

open AddressSpace BootMemory ByteBuffers Function Kalloc PageFault PageTables
open ProcTable (Slot nproc)

inductive Life where
  | unused
  | alive
  | zombie
  deriving DecidableEq, Repr

structure Space where
  life : Life
  kstack : Nat
  pgdir : Nat
  sz : Nat
  parent : Option Slot

/-- `cpuStacks` are the scheduler stacks of the other processors. -/
structure Sys where
  mem : Mem
  kpgdir : Nat
  cpuStacks : List Nat
  procs : Slot → Space

def setSpace (sys : Sys) (slot : Slot) (space : Space) : Sys :=
  { sys with procs := update sys.procs slot space }

def setMem (sys : Sys) (m : Mem) : Sys := { sys with mem := m }

def initproc : Slot := 0

def startothers (b : Build) : Nat → Mem → Except Stop (List Nat × Mem)
  | 0, m => .ok ([], m)
  | count + 1, m => do
    match ← kalloc b m with
    | (none, _) => .error .nullPage
    | (some stack, m) =>
      let (cpuStacks, m) ← startothers b count m
      .ok (stack :: cpuStacks, m)

def emptySpace : Space := { life := .unused, kstack := 0, pgdir := 0, sz := 0, parent := none }

def userinit (b : Build) (kpgdir : Nat) (cpuStacks : List Nat) (init : List Byte) (m : Mem) :
    Except Stop Sys := do
  match ← kalloc b m with
  | (none, _) => .error .nullPage
  | (some kstack, m) =>
    match ← setupkvm b m with
    | (none, _) => .error .outOfMemory
    | (some pgdir, m) =>
      let m ← inituvm b m pgdir init
      let first : Space :=
        { life := .alive, kstack := kstack, pgdir := pgdir, sz := pgsize, parent := none }
      .ok (setSpace
        { mem := m, kpgdir := kpgdir, cpuStacks := cpuStacks, procs := fun _ => emptySpace }
        initproc first)

/-- `main`, with the memory as the boot loader left it, the number of other processors
and the bytes of `initcode`. -/
def main (b : Build) (page : Nat → Buffer) (cpus : Nat) (init : List Byte) : Except Stop Sys := do
  let m ← kinit1 b (bootMem page)
  match ← setupkvm b m with
  | (none, _) => .error .nullPage
  | (some kpgdir, m) =>
    let (cpuStacks, m) ← startothers b cpus m
    let m ← kinit2 b m
    userinit b kpgdir cpuStacks init m

def findUnused (sys : Sys) : Option Slot :=
  (List.finRange nproc).find? fun slot => (sys.procs slot).life = .unused

def fork (b : Build) (sys : Sys) (slot : Slot) : Except Stop Sys :=
  match findUnused sys with
  | none => .ok sys
  | some child => do
    match ← kalloc b sys.mem with
    | (none, m) => .ok (setMem sys m)
    | (some kstack, m) =>
      let proc := sys.procs slot
      match ← cowuvm b m proc.pgdir proc.sz with
      | (none, m) =>
        let m ← kfree b m kstack
        .ok (setMem sys m)
      | (some pgdir, m) =>
        .ok (setSpace (setMem sys m) child
          { life := .alive, kstack := kstack, pgdir := pgdir, sz := proc.sz,
            parent := some slot })

/-- A store to user memory: the hardware writes the byte, or the fault is serviced and the
store is left to be tried again. -/
def store (b : Build) (sys : Sys) (slot : Slot) (va : Nat) (value : Byte) : Except Stop Sys := do
  let pgdir := (sys.procs slot).pgdir
  let pte := entry sys.mem pgdir (va / pgsize)
  if has pte pteP && has pte pteU && has pte pteW then
    let frame := pteFrame pte
    .ok (setMem sys (setPage sys.mem frame (update (sys.mem.page frame) (va % pgsize) value)))
  else
    let m ← pgflthandler b sys.mem pgdir va
    .ok (setMem sys m)

/-- The result 0 of `allocuvm` and `deallocuvm` is taken for a failure. -/
def setSize (sys : Sys) (slot : Slot) (m : Mem) (sz : Nat) : Sys :=
  if sz = 0 then setMem sys m
  else setSpace (setMem sys m) slot { sys.procs slot with sz := sz }

def growproc (b : Build) (sys : Sys) (slot : Slot) (n : Int) : Except Stop Sys := do
  let proc := sys.procs slot
  let newsz := ((proc.sz + n) % 2 ^ 32).toNat
  if 0 < n then
    let (sz, m) ← allocuvm b sys.mem proc.pgdir proc.sz newsz
    .ok (setSize sys slot m sz)
  else if n < 0 then
    let (sz, m) ← deallocuvm b sys.mem proc.pgdir proc.sz newsz
    .ok (setSize sys slot m sz)
  else .ok sys

def exec (b : Build) (sys : Sys) (slot : Slot) (file : List Byte) (argv : List (List Byte)) :
    Except Stop Sys := do
  let proc := sys.procs slot
  let result ← Exec.exec b sys.mem proc.pgdir file argv
  match result.space with
  | none => .ok (setMem sys result.m)
  | some (pgdir, sz) =>
    .ok (setSpace (setMem sys result.m) slot { proc with pgdir := pgdir, sz := sz })

/-- The children pass to `initproc`. -/
def exit (sys : Sys) (slot : Slot) : Except Stop Sys :=
  if slot = initproc then .error .initExiting
  else
    let adopt (space : Space) : Space :=
      if space.parent = some slot then { space with parent := some initproc } else space
    .ok { sys with
      procs := fun other =>
        if other = slot then { adopt (sys.procs other) with life := .zombie }
        else adopt (sys.procs other) }

def findZombie (sys : Sys) (slot : Slot) : Option Slot :=
  (List.finRange nproc).find? fun child =>
    decide ((sys.procs child).parent = some slot ∧ (sys.procs child).life = .zombie)

/-- One round of `wait`; without a zombie it sleeps or returns -1. -/
def wait (b : Build) (sys : Sys) (slot : Slot) : Except Stop Sys :=
  match findZombie sys slot with
  | none => .ok sys
  | some child => do
    let space := sys.procs child
    let m ← kfree b sys.mem space.kstack
    let m ← freevm b m space.pgdir
    .ok (setSpace (setMem sys m) child
      { space with life := .unused, kstack := 0, parent := none })

inductive Action where
  | fork (slot : Slot)
  | store (slot : Slot) (va : Nat) (value : Byte)
  | growproc (slot : Slot) (n : Int)
  | exec (slot : Slot) (file : List Byte) (argv : List (List Byte))
  | exit (slot : Slot)
  | wait (slot : Slot)

def Action.slot : Action → Slot
  | .fork slot => slot
  | .store slot _ _ => slot
  | .growproc slot _ => slot
  | .exec slot _ _ => slot
  | .exit slot => slot
  | .wait slot => slot

def call (b : Build) (sys : Sys) : Action → Except Stop Sys
  | .fork slot => fork b sys slot
  | .store slot va value => store b sys slot va value
  | .growproc slot n => growproc b sys slot n
  | .exec slot file argv => exec b sys slot file argv
  | .exit slot => exit sys slot
  | .wait slot => wait b sys slot

def step (b : Build) (sys : Sys) (action : Action) : Except Stop Sys :=
  if (sys.procs action.slot).life = .alive then call b sys action else .error .notRunning

end Xv6Hacks.ProcessMemory
