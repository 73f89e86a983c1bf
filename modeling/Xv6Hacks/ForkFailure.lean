import Xv6Hacks.OpenFiles
import Xv6Hacks.PageFault

/-!
# A `fork` that fails

`fork` with everything it changes: the process table and its ticket counter, physical
memory, the kernel stacks and page directories, the open files and the current directories.
`-Doriginal` selects `copyuvm` in place of `cowuvm`.
-/

namespace Xv6Hacks.ForkFailure

open AddressSpace Function GuardedRuns Kalloc ProcTable
open OpenFiles (Fd FileSlot Files filedup nofile)

/-- Null pointers are `none`; `cwd` and `inodeRef` name inodes by their cache slots. -/
structure Kernel where
  ptable : Ptable
  mem : Mem
  kstack : Slot → Option Nat
  pgdir : Slot → Option Nat
  sz : Slot → Nat
  ofile : Slot → Fd → Option FileSlot
  files : Files
  cwd : Slot → Nat
  inodeRef : Nat → Nat

inductive Stop where
  | memory (stop : Kalloc.Stop)
  | files (stop : OpenFiles.Stop)

/-- `if(proc->ofile[i]) np->ofile[i] = filedup(proc->ofile[i])` -/
def dupFile (ofile : Fd → Option FileSlot) (child : (Fd → Option FileSlot) × Files) (fd : Fd) :
    Except Stop ((Fd → Option FileSlot) × Files) :=
  match ofile fd with
  | none => .ok child
  | some f => do
    let files ← (filedup child.2 f).mapError .files
    .ok (update child.1 fd (some f), files)

def idup (inodeRef : Nat → Nat) (ip : Nat) : Nat → Nat := update inodeRef ip (inodeRef ip + 1)

def copySpace (b : Build) (k : Kernel) (m : Mem) (current : Slot) :
    Except Stop (Option Nat × Mem) :=
  match k.pgdir current with
  | none => .error (.memory .noPgdir)
  | some pgdir =>
    if b.original then (copyuvm b m pgdir (k.sz current)).mapError .memory
    else (cowuvm b m pgdir (k.sz current)).mapError .memory

def fork (b : Build) (k : Kernel) (current : Slot) : Except Stop (Int × Kernel) :=
  match findUnused k.ptable with
  | none => .ok (-1, k)
  | some np => do
    match ← (kalloc b k.mem).mapError .memory with
    | (none, m) =>
      .ok (-1, { k with
        ptable := (allocproc k.ptable (some current) false).2
        mem := m
        kstack := update k.kstack np none })
    | (some kstack, m) =>
      let ptable := (allocproc k.ptable (some current) true).2
      match ← copySpace b k m current with
      | (none, m) =>
        let m ← (kfree b m kstack).mapError .memory
        .ok (-1, { k with
          ptable := setProc ptable np { ptable.proc np with state := .unused }
          mem := m
          pgdir := update k.pgdir np none
          kstack := update k.kstack np none })
      | (some pgdir, m) =>
        let (ofile, files) ←
          (List.finRange nofile).foldlM (dupFile (k.ofile current)) (k.ofile np, k.files)
        .ok ((ptable.proc np).pid, {
          ptable := setProc ptable np
            { ptable.proc np with parent := some current, state := .runnable }
          mem := m
          kstack := update k.kstack np (some kstack)
          pgdir := update k.pgdir np (some pgdir)
          sz := update k.sz np (k.sz current)
          ofile := update k.ofile np ofile
          files := files
          cwd := update k.cwd np (k.cwd current)
          inodeRef := idup k.inodeRef (k.cwd current) })

variable {b : Build} {k after : Kernel} {current np : Slot}

end Xv6Hacks.ForkFailure
