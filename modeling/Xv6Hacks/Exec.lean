import Xv6Hacks.AddressSpace

/-!
# Loading an executable

`exec.c` and `loaduvm` of `vm.c`, for a regular file given by its bytes. The path lookup
and the locks are left out. Two lists are kept beside the code: the pages that
`allocuvm` has mapped for the new directory, and the pages that `loaduvm` wrote to
although they are none of these. A write into the image of the kernel, or above
physical memory, stops the model.
-/

namespace Xv6Hacks.Exec

open AddressSpace ByteBuffers Kalloc PageTables

/-- `readi` on a regular file; `none` stands for -1. -/
def readi (file : List Byte) (off n : Nat) : Option (List Byte) :=
  if file.length < off ∨ 2 ^ 32 ≤ off + n then none
  else some ((file.drop off).take n)

def bufferOf (bytes : List Byte) : Buffer := fun index => bytes.getD index 0

def elfMagic : Nat := 0x464C457F
def elfProgLoad : Nat := 1
def sizeofElfhdr : Nat := 52
def sizeofProghdr : Nat := 32

/-- The fields of `struct elfhdr` that `exec` looks at. -/
structure Elfhdr where
  magic : Nat
  phoff : Nat
  phnum : Nat

/-- The fields of `struct proghdr` that `exec` looks at. -/
structure Proghdr where
  type : Nat
  off : Nat
  vaddr : Nat
  filesz : Nat
  memsz : Nat

def Elfhdr.decode (bytes : List Byte) : Elfhdr where
  magic := readLE (bufferOf bytes) 0 4
  phoff := readLE (bufferOf bytes) 28 4
  phnum := readLE (bufferOf bytes) 44 2

def Proghdr.decode (bytes : List Byte) : Proghdr where
  type := readLE (bufferOf bytes) 0 4
  off := readLE (bufferOf bytes) 4 4
  vaddr := readLE (bufferOf bytes) 8 4
  filesz := readLE (bufferOf bytes) 16 4
  memsz := readLE (bufferOf bytes) 20 4

/-- The header of the file if it is whole and has the magic number. -/
def readElfhdr (file : List Byte) : Option Elfhdr :=
  match readi file 0 sizeofElfhdr with
  | none => none
  | some bytes =>
    if bytes.length < sizeofElfhdr then none
    else
      let elf := Elfhdr.decode bytes
      if elf.magic ≠ elfMagic then none else some elf

/-- `off` is an `int` that wraps. -/
def readProghdr (file : List Byte) (off : Nat) : Option Proghdr :=
  match readi file (off % 2 ^ 32) sizeofProghdr with
  | none => none
  | some bytes => if bytes.length ≠ sizeofProghdr then none else some (Proghdr.decode bytes)

structure Image where
  m : Mem
  sz : Nat
  allocated : List Nat
  escapes : List Nat

def framesAt (m : Mem) (pgdir first last : Nat) : List Nat :=
  (List.range' first (last - first)).map fun n => pteFrame (entry m pgdir n)

/-- A call of `allocuvm`; `false` stands for the result 0. -/
def grow (b : Build) (pgdir : Nat) (image : Image) (newsz : Nat) : Except Stop (Bool × Image) := do
  let (sz, m) ← allocuvm b image.m pgdir image.sz newsz
  if sz = 0 then .ok (false, { image with m := m })
  else
    .ok (true, { image with
      m := m
      sz := sz
      allocated := image.allocated ++ framesAt m pgdir (pagesUp image.sz) (pagesUp sz) })

def storeBytes (b : Build) (image : Image) (frame : Nat) (bytes : List Byte) : Except Stop Image :=
  if bytes = [] then .ok image
  else if frame < b.endFrame ∨ maxpages ≤ frame then .error .overKernel
  else
    .ok { image with
      m := setPage image.m frame (copyInto (image.m.page frame) 0 bytes)
      escapes :=
        if frame ∈ image.allocated then image.escapes else image.escapes ++ [frame] }

/-- The loop of `loaduvm` from the page with index `k` on. Whether the entry is present
is not looked at. -/
def loadLoop (b : Build) (file : List Byte) (pgdir first offset sz : Nat) :
    Nat → Nat → Image → Except Stop (Bool × Image)
  | 0, _, image => .ok (true, image)
  | count + 1, k, image =>
    match findPte image.m pgdir ((first + k) % vpages) with
    | none => .error .loaduvmAbsent
    | some (table, index) =>
      let n := min (sz - k * pgsize) pgsize
      match readi file ((offset + k * pgsize) % 2 ^ 32) n with
      | none => .ok (false, image)
      | some bytes => do
        let image ← storeBytes b image (pteFrame (readEntry image.m table index)) bytes
        if bytes.length = n then loadLoop b file pgdir first offset sz count (k + 1) image
        else .ok (false, image)

def loaduvm (b : Build) (file : List Byte) (pgdir addr offset sz : Nat) (image : Image) :
    Except Stop (Bool × Image) :=
  if addr % pgsize ≠ 0 then .error .loaduvmAlign
  else loadLoop b file pgdir (addr / pgsize) offset sz (pagesUp sz) 0 image

def loadSegment (b : Build) (file : List Byte) (pgdir : Nat) (image : Image) (ph : Proghdr) :
    Except Stop (Bool × Image) :=
  if ph.memsz < ph.filesz then .ok (false, image)
  else do
    let (grown, image) ← grow b pgdir image ((ph.vaddr + ph.memsz) % 2 ^ 32)
    if grown then loaduvm b file pgdir ph.vaddr ph.off ph.filesz image else .ok (false, image)

/-- The loop over the program headers; `false` stands for `goto bad`. -/
def loadHeaders (b : Build) (file : List Byte) (pgdir : Nat) :
    Nat → Nat → Image → Except Stop (Bool × Image)
  | 0, _, image => .ok (true, image)
  | count + 1, off, image =>
    match readProghdr file off with
    | none => .ok (false, image)
    | some ph =>
      if ph.type ≠ elfProgLoad then
        loadHeaders b file pgdir count (off + sizeofProghdr) image
      else do
        let (loaded, image) ← loadSegment b file pgdir image ph
        if loaded then loadHeaders b file pgdir count (off + sizeofProghdr) image
        else .ok (false, image)

def maxarg : Nat := 32

/-- Push the argument strings; `none` stands for `goto bad`. The addresses come in the
order of the arguments. -/
def pushStrings (pgdir : Nat) :
    List (List Byte) → Nat → Nat → Mem → Except Stop (Option (Nat × List Nat) × Mem)
  | [], _, sp, m => .ok (some (sp, []), m)
  | arg :: rest, argc, sp, m =>
    if maxarg ≤ argc then .ok (none, m)
    else do
      let sp := (sp + 2 ^ 32 - (arg.length + 1)) % 2 ^ 32 / 4 * 4
      let (copied, m) ← copyout m pgdir sp (arg ++ [0])
      if copied then
        match ← pushStrings pgdir rest (argc + 1) sp m with
        | (some (last, addresses), m) => .ok (some (last, sp :: addresses), m)
        | (none, m) => .ok (none, m)
      else .ok (none, m)

def wordBytes (value : Nat) : List Byte := (List.range 4).map (byteOf value)

/-- The strings, then the fake return address, `argc`, `argv` and the pointers. -/
def pushArgs (pgdir sp : Nat) (argv : List (List Byte)) (m : Mem) : Except Stop (Bool × Mem) := do
  match ← pushStrings pgdir argv 0 sp m with
  | (none, m) => .ok (false, m)
  | (some (sp, addresses), m) =>
    let argc := argv.length
    let ustack := [2 ^ 32 - 1, argc, (sp + 2 ^ 32 - (argc + 1) * 4) % 2 ^ 32] ++ addresses ++ [0]
    let sp := (sp + 2 ^ 32 - (3 + argc + 1) * 4) % 2 ^ 32
    copyout m pgdir sp (ustack.flatMap wordBytes)

/-- The memory afterwards, and the new directory and size unless `exec` returned -1. -/
structure Outcome where
  m : Mem
  space : Option (Nat × Nat)
  escapes : List Nat

def bad (b : Build) (pgdir : Nat) (m : Mem) (escapes : List Nat) : Except Stop Outcome := do
  let m ← freevm b m pgdir
  .ok { m := m, space := none, escapes := escapes }

/-- Everything after the program headers: two more pages, the first of which becomes
inaccessible, the arguments, and the switch to the new directory. -/
def finish (b : Build) (oldpgdir pgdir : Nat) (argv : List (List Byte)) (image : Image) :
    Except Stop Outcome := do
  let top := pagesUp image.sz * pgsize
  let (grown, image) ← grow b pgdir { image with sz := top } (top + 2 * pgsize)
  if grown = false then bad b pgdir image.m image.escapes
  else
    let m ← clearpteu image.m pgdir (pagesUp image.sz - 2)
    let (pushed, m) ← pushArgs pgdir image.sz argv m
    if pushed = false then bad b pgdir m image.escapes
    else
      let m ← freevm b m oldpgdir
      .ok { m := m, space := some (pgdir, image.sz), escapes := image.escapes }

def emptyImage (m : Mem) : Image := { m := m, sz := 0, allocated := [], escapes := [] }

def exec (b : Build) (m : Mem) (oldpgdir : Nat) (file : List Byte) (argv : List (List Byte)) :
    Except Stop Outcome :=
  match readElfhdr file with
  | none => .ok { m := m, space := none, escapes := [] }
  | some elf => do
    match ← setupkvm b m with
    | (none, m) => .ok { m := m, space := none, escapes := [] }
    | (some pgdir, m) =>
      let (loaded, image) ← loadHeaders b file pgdir elf.phnum elf.phoff (emptyImage m)
      if loaded then finish b oldpgdir pgdir argv image
      else bad b pgdir image.m image.escapes

end Xv6Hacks.Exec
