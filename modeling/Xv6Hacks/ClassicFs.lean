import Xv6Hacks.BlockOwnership

/-!
# Files in the classic layout

The block allocator and the inode contents of `fs.c` for the build with `-Dxv6ffs`:
one inode area, one bitmap and one data area. As for the other build, `disk` is what
`bread` returns and `held` is the block whose buffer the caller keeps busy. `Inode` is
the locked in-memory inode that a call works on; it is passed on and returned.
-/

namespace Xv6Hacks.ClassicFs

open BlockOwnership ByteBuffers Function WriteSequences
open BlockGroupLayout
open DiskFormat

inductive Stop where
  /-- "incorrect blockno" -/
  | incorrectBlockno
  /-- "balloc: out of blocks" -/
  | outOfBlocks
  /-- "freeing free block" -/
  | freeingFreeBlock
  /-- "ilock: no type" -/
  | noType
  /-- "bmap: out of range" -/
  | outOfRange
  /-- The process sleeps on a busy buffer. -/
  | asleep
  deriving DecidableEq, Repr

structure Superblock where
  size : Nat
  nblocks : Nat
  ninodes : Nat
  nlog : Nat
  logstart : Nat
  inodestart : Nat
  bmapstart : Nat
  deriving DecidableEq, Repr

def readSuperblock (buf : Buffer) : Superblock where
  size := readLE buf 0 4
  nblocks := readLE buf 4 4
  ninodes := readLE buf 8 4
  nlog := readLE buf 12 4
  logstart := readLE buf 16 4
  inodestart := readLE buf 20 4
  bmapstart := readLE buf 24 4

def fssize : Nat := 1000

def bpb : Nat := bsize * 8

def iblock (i : Nat) (sb : Superblock) : Nat := i / ipb + sb.inodestart

def bblock (b : Nat) (sb : Superblock) : Nat := b / bpb + sb.bmapstart

def dinodeoffset (inum : Nat) : Nat := inum % ipb

structure Fs where
  sb : Superblock
  disk : Store Buffer

structure Inode where
  inum : Nat
  din : Dinode

/-- `idestart` refuses block numbers outside the disk. -/
def bread (fs : Fs) (held : Option Nat) (blockno : Nat) : Except Stop Buffer :=
  if held = some blockno then .error .asleep
  else if blockno < fssize then .ok (fs.disk blockno)
  else .error .incorrectBlockno

def logWrite (fs : Fs) (blockno : Nat) (data : Buffer) : Fs :=
  { fs with disk := update fs.disk blockno data }

def bzero (fs : Fs) (held : Option Nat) (bno : Nat) : Except Stop Fs := do
  let _ ← bread fs held bno
  .ok (logWrite fs bno blankBlock)

def clearBitOf (sb : Superblock) (buf : Buffer) (b : Nat) : Option Nat :=
  (List.range (min bpb (sb.size - b))).find? fun bi => !bitSet buf bi

def scanBitmaps (fs : Fs) (held : Option Nat) (b : Nat) : Except Stop (Option Nat) :=
  if b < fs.sb.size then do
    let buf ← bread fs held (bblock b fs.sb)
    match clearBitOf fs.sb buf b with
    | some bi => .ok (some (b + bi))
    | none => scanBitmaps fs held (b + bpb)
  else .ok none
termination_by fs.sb.size - b
decreasing_by
  have positive : 0 < bpb := by decide
  omega

def takeBlock (fs : Fs) (held : Option Nat) (b : Nat) : Except Stop (Nat × Fs) := do
  let buf ← bread fs held (bblock b fs.sb)
  let fs := logWrite fs (bblock b fs.sb) (setBit buf (b % bpb))
  let fs ← bzero fs held b
  .ok (b, fs)

def balloc (fs : Fs) (held : Option Nat) : Except Stop (Nat × Fs) := do
  match ← scanBitmaps fs held 0 with
  | some b => takeBlock fs held b
  | none => .error .outOfBlocks

def bfree (fs : Fs) (held : Option Nat) (b : Nat) : Except Stop Fs := do
  let superblock ← bread fs held 1
  let fs := { fs with sb := readSuperblock superblock }
  let buf ← bread fs held (bblock b fs.sb)
  if bitSet buf (b % bpb) then .ok (logWrite fs (bblock b fs.sb) (clearBit buf (b % bpb)))
  else .error .freeingFreeBlock

def loadDinode (fs : Fs) (inum : Nat) : Dinode :=
  readDinode (fs.disk (iblock inum fs.sb)) (dinodeoffset inum)

def iupdate (fs : Fs) (ip : Inode) : Except Stop Fs := do
  let buf ← bread fs none (iblock ip.inum fs.sb)
  .ok (logWrite fs (iblock ip.inum fs.sb) (writeDinode buf (dinodeoffset ip.inum) ip.din))

def fillAddr (fs : Fs) (ip : Inode) (index : Nat) : Except Stop (Inode × Fs) := do
  if ip.din.addr index = 0 then
    let (addr, fs) ← balloc fs none
    .ok ({ ip with din := ip.din.setAddr index addr }, fs)
  else .ok (ip, fs)

def fillEntry (fs : Fs) (indirect index : Nat) : Except Stop Fs := do
  let buf ← bread fs none indirect
  if readLE buf (sizeofUint * index) sizeofUint = 0 then
    let (addr, fs) ← balloc fs (some indirect)
    .ok (logWrite fs indirect (writeLE buf (sizeofUint * index) sizeofUint addr))
  else .ok fs

def bmap (fs : Fs) (ip : Inode) (bn : Nat) : Except Stop (Nat × Inode × Fs) := do
  if bn < ndirect then
    let (ip, fs) ← fillAddr fs ip bn
    .ok (ip.din.addr bn, ip, fs)
  else if bn - ndirect < nindirect then
    let (ip, fs) ← fillAddr fs ip ndirect
    let fs ← fillEntry fs (ip.din.addr ndirect) (bn - ndirect)
    .ok (refAt fs.disk ip.din (.entry (bn - ndirect)), ip, fs)
  else .error .outOfRange

def freeAddr (state : Inode × Fs) (index : Nat) : Except Stop (Inode × Fs) := do
  let (ip, fs) := state
  let addr := ip.din.addr index
  if addr = 0 then .ok (ip, fs)
  else
    let fs ← bfree fs none addr
    .ok ({ ip with din := ip.din.setAddr index 0 }, fs)

def freeEntry (indirect : Nat) (buf : Buffer) (fs : Fs) (index : Nat) : Except Stop Fs :=
  let addr := readLE buf (sizeofUint * index) sizeofUint
  if addr = 0 then .ok fs else bfree fs (some indirect) addr

def freeIndirect (ip : Inode) (fs : Fs) : Except Stop (Inode × Fs) :=
  let indirect := ip.din.addr ndirect
  if indirect = 0 then .ok (ip, fs)
  else do
    let buf ← bread fs none indirect
    let fs ← (List.range nindirect).foldlM (freeEntry indirect buf) fs
    freeAddr (ip, fs) ndirect

def setSize (ip : Inode) (size : Nat) : Inode :=
  { ip with din := { ip.din with size := BitVec.ofNat 32 size } }

def itrunc (fs : Fs) (ip : Inode) : Except Stop (Inode × Fs) := do
  let (ip, fs) ← (List.range ndirect).foldlM freeAddr (ip, fs)
  let (ip, fs) ← freeIndirect ip fs
  let ip := setSize ip 0
  let fs ← iupdate fs ip
  .ok (ip, fs)

theorem in_block_room (off : Nat) : 0 < bsize - off % bsize := by
  have below : off % bsize < bsize := Nat.mod_lt _ (by decide)
  omega

def blockBytes (buf : Buffer) (off m : Nat) : List Byte :=
  (List.range m).map fun k => buf (off + k)

def readLoop (fs : Fs) (ip : Inode) (off n : Nat) : Except Stop (List Byte × Inode × Fs) :=
  if n = 0 then .ok ([], ip, fs)
  else do
    let (addr, ip, fs) ← bmap fs ip (off / bsize)
    let buf ← bread fs none addr
    let m := min n (bsize - off % bsize)
    let (rest, ip, fs) ← readLoop fs ip (off + m) (n - m)
    .ok (blockBytes buf (off % bsize) m ++ rest, ip, fs)
termination_by n
decreasing_by
  have room := in_block_room off
  omega

/-- The results of the devices' own functions, if there are any. -/
structure Devsw where
  read : BitVec 16 → Option (List Byte)
  write : BitVec 16 → Option Int

structure Answer where
  value : Int
  bytes : List Byte
  deriving DecidableEq, Repr

def failed : Answer := { value := -1, bytes := [] }

def deviceRead (bytes : Option (List Byte)) : Answer :=
  match bytes with
  | some bytes => { value := bytes.length, bytes := bytes }
  | none => failed

def readi (devsw : Devsw) (fs : Fs) (ip : Inode) (off n : Nat) :
    Except Stop (Answer × Inode × Fs) := do
  let size := ip.din.size.toNat
  if ip.din.type = tDev then .ok (deviceRead (devsw.read ip.din.major), ip, fs)
  else if size < off ∨ 2 ^ 32 ≤ off + n then .ok (failed, ip, fs)
  else
    let n := if size < off + n then size - off else n
    let (bytes, ip, fs) ← readLoop fs ip off n
    .ok ({ value := n, bytes := bytes }, ip, fs)

def storeBytes (fs : Fs) (blockno off : Nat) (bytes : List Byte) : Except Stop Fs := do
  let buf ← bread fs none blockno
  .ok (logWrite fs blockno (copyInto buf off bytes))

def writeLoop (fs : Fs) (ip : Inode) (src : List Byte) (off : Nat) :
    Except Stop (Nat × Inode × Fs) :=
  if src = [] then .ok (off, ip, fs)
  else do
    let (addr, ip, fs) ← bmap fs ip (off / bsize)
    let m := min src.length (bsize - off % bsize)
    let fs ← storeBytes fs addr (off % bsize) (src.take m)
    writeLoop fs ip (src.drop m) (off + m)
termination_by src.length
decreasing_by
  have room := in_block_room off
  have nonempty := List.length_pos_iff.mpr ‹src ≠ []›
  simp only [List.length_drop]
  omega

def writei (devsw : Devsw) (fs : Fs) (ip : Inode) (src : List Byte) (off : Nat) :
    Except Stop (Answer × Inode × Fs) := do
  let size := ip.din.size.toNat
  let done : Answer := { value := src.length, bytes := [] }
  if ip.din.type = tDev then
    .ok ({ value := (devsw.write ip.din.major).getD (-1), bytes := [] }, ip, fs)
  else if size < off ∨ 2 ^ 32 ≤ off + src.length then .ok (failed, ip, fs)
  else if maxfile * bsize < off + src.length then .ok (failed, ip, fs)
  else
    let (last, ip, fs) ← writeLoop fs ip src off
    if src ≠ [] ∧ ip.din.size.toNat < last then
      let ip := setSize ip last
      let fs ← iupdate fs ip
      .ok (done, ip, fs)
    else .ok (done, ip, fs)

/-- `icache` has the valid copies of the inodes in memory. -/
structure Sys where
  fs : Fs
  icache : Nat → Option Dinode

inductive Call where
  | readi (inum off n : Nat)
  | writei (inum : Nat) (src : List Byte) (off : Nat)
  | itrunc (inum : Nat)
  /-- The last reference to the inode goes away and its cache entry is recycled. -/
  | evict (inum : Nat)
  deriving DecidableEq, Repr

def Call.inum : Call → Nat
  | .readi inum _ _ => inum
  | .writei inum _ _ => inum
  | .itrunc inum => inum
  | .evict inum => inum

def ilock (sys : Sys) (inum : Nat) : Except Stop Inode :=
  match sys.icache inum with
  | some din => .ok { inum := inum, din := din }
  | none => do
    let buf ← bread sys.fs none (iblock inum sys.fs.sb)
    let din := readDinode buf (dinodeoffset inum)
    if din.type = 0 then .error .noType else .ok { inum := inum, din := din }

def putBack (sys : Sys) (result : Answer × Inode × Fs) : Answer × Sys :=
  (result.1, { fs := result.2.2,
               icache := update sys.icache result.2.1.inum (some result.2.1.din) })

def step (devsw : Devsw) (sys : Sys) : Call → Except Stop (Answer × Sys)
  | .readi inum off n => do
    let ip ← ilock sys inum
    let result ← readi devsw sys.fs ip off n
    .ok (putBack sys result)
  | .writei inum src off => do
    let ip ← ilock sys inum
    let result ← writei devsw sys.fs ip src off
    .ok (putBack sys result)
  | .itrunc inum => do
    let ip ← ilock sys inum
    let (ip, fs) ← itrunc sys.fs ip
    .ok (putBack sys ({ value := 0, bytes := [] }, ip, fs))
  | .evict inum =>
    .ok ({ value := 0, bytes := [] },
      { sys with icache := update sys.icache inum none })

def run (devsw : Devsw) (sys : Sys) : List Call → Except Stop (List Answer × Sys)
  | [] => .ok ([], sys)
  | call :: rest => do
    let (answer, sys) ← step devsw sys call
    let (answers, sys) ← run devsw sys rest
    .ok (answer :: answers, sys)

end Xv6Hacks.ClassicFs
