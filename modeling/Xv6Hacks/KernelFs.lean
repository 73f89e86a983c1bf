import Xv6Hacks.BlockOwnership

/-!
# Blocks and inodes in the kernel

The block allocator and the inode layer of `fs.c` for the default build. `disk` is
what `bread` returns: the buffer cache and the log only decide when a change reaches
the medium, so `log_write` and `bwrite` store into it at once, and the two panics of
`log_write` are not modelled. There is one device. A function that panics, or that
would put its process to sleep, stops with an error. `held` is the block whose
buffer the caller keeps busy, on which `bget` would wait forever.
-/

namespace Xv6Hacks.KernelFs

open BlockGroupLayout BlockOwnership ByteBuffers DiskFormat Function WriteSequences

inductive Stop where
  /-- "incorrect blockno" -/
  | incorrectBlockno
  /-- "balloc: out of blocks" -/
  | outOfBlocks
  /-- "freeing free block" -/
  | freeingFreeBlock
  /-- "No More free iNodes" -/
  | noMoreFreeInodes
  /-- "ialloc: no inodes" -/
  | noInodes
  /-- "iget: no inodes" -/
  | noCacheEntries
  /-- "ilock" -/
  | ilock
  /-- "ilock: no type" -/
  | noType
  /-- "iunlock" -/
  | iunlock
  /-- "iput busy" -/
  | iputBusy
  /-- "bmap: out of range" -/
  | outOfRange
  /-- The process sleeps on a busy buffer or inode. -/
  | asleep
  /-- The caller does not hold the lock of the inode. -/
  | notLocked
  deriving DecidableEq, Repr

abbrev ninode : Nat := 50

abbrev CacheSlot := Fin ninode

instance : NeZero ninode := ⟨by decide⟩

/-- `struct inode`; `busy` and `valid` are the two flags. -/
structure Inode where
  inum : Nat
  ref : Nat
  busy : Bool
  valid : Bool
  din : Dinode

structure Fs where
  sb : Superblock
  disk : Store Buffer
  icache : CacheSlot → Inode

/-- `iderw` refuses block numbers outside the disk. -/
def bread (fs : Fs) (held : Option Nat) (blockno : Nat) : Except Stop Buffer :=
  if held = some blockno then .error .asleep
  else if blockno < fssize blockgroups then .ok (fs.disk blockno)
  else .error .incorrectBlockno

def logWrite (fs : Fs) (blockno : Nat) (data : Buffer) : Fs :=
  { fs with disk := update fs.disk blockno data }

theorem log_write_other (fs : Fs) (blockno other : Nat) (data : Buffer)
    (different : other ≠ blockno) : (logWrite fs blockno data).disk other = fs.disk other :=
  update_of_ne different _ _

def bzero (fs : Fs) (held : Option Nat) (bno : Nat) : Except Stop Fs := do
  let _ ← bread fs held bno
  .ok (logWrite fs bno blankBlock)

def clearBitOf (sb : Superblock) (buf : Buffer) (b : Nat) : Option Nat :=
  (List.range (min bpb (sb.size - b))).find? fun bi => !bitSet buf bi

/-- The loop over the bitmaps from virtual block `b` on. -/
def scanBitmaps (fs : Fs) (held : Option Nat) (b head : Nat) : Except Stop (Option Nat) :=
  if head < fs.sb.size ∧ b < fs.sb.nblocks then do
    let buf ← bread fs held (bblock b fs.sb)
    match clearBitOf fs.sb buf b with
    | some bi => .ok (some (b + bi))
    | none => scanBitmaps fs held (b + bpb) (head + BlockGroupLayout.bpbg)
  else .ok none
termination_by fs.sb.nblocks - b
decreasing_by
  have positive : 0 < bpb := by decide
  omega

/-- Mark virtual block `v` and clear the block of that number. The block handed out
is another one. -/
def takeBlock (fs : Fs) (held : Option Nat) (v : Nat) : Except Stop (Nat × Fs) := do
  let buf ← bread fs held (bblock v fs.sb)
  let fs := logWrite fs (bblock v fs.sb) (setBit buf (v % bpb))
  let fs ← bzero fs held v
  .ok (dblock v fs.sb, fs)

def balloc (fs : Fs) (held : Option Nat) (cwd : Nat) : Except Stop (Nat × Fs) := do
  match ← scanBitmaps fs held (bgroup cwd fs.sb * bpb) (bmapHead cwd fs.sb) with
  | some v => takeBlock fs held v
  | none =>
    match ← scanBitmaps fs held 0 0 with
    | some v => takeBlock fs held v
    | none => .error .outOfBlocks

def bfree (fs : Fs) (held : Option Nat) (b : Nat) : Except Stop Fs := do
  let superblock ← bread fs held 1
  let fs := { fs with sb := readSuperblock superblock }
  let buf ← bread fs held (bblock b fs.sb)
  if bitSet buf (b % bpb) then .ok (logWrite fs (bblock b fs.sb) (clearBit buf (b % bpb)))
  else .error .freeingFreeBlock

def statoff : Nat := bsize - 2 * sizeofUint

def usedBlocks (buf : Buffer) : Nat := readLE buf statoff sizeofUint

def percentFull (buf : Buffer) : Nat := readLE buf (statoff + sizeofUint) sizeofUint

def writeStats (buf : Buffer) (used percent : Nat) : Buffer :=
  writeLE (writeLE buf statoff sizeofUint used) (statoff + sizeofUint) sizeofUint percent

def storeStats (sb : Superblock) (disk : Store Buffer) (group used : Nat) : Store Buffer :=
  update disk (statblock group sb)
    (writeStats (disk (statblock group sb)) used (statPercentageAbs used sb))

def clearFSStats (sb : Superblock) (disk : Store Buffer) : Store Buffer :=
  (List.range sb.nblockgroups).foldl (fun disk group => storeStats sb disk group 0) disk

def inodesInUse (sb : Superblock) (disk : Store Buffer) (group : Nat) : Nat :=
  (List.range sb.ipbg).countP fun index =>
    decide (0 < group * sb.ipbg + index) &&
      (0#16).slt (loadDinode disk sb (group * sb.ipbg + index)).type

def fillFSStats (sb : Superblock) (disk : Store Buffer) : Store Buffer :=
  (List.range sb.nblockgroups).foldl
    (fun disk group => storeStats sb disk group (inodesInUse sb disk group)) disk

def setInode (fs : Fs) (slot : CacheSlot) (ip : Inode) : Fs :=
  { fs with icache := update fs.icache slot ip }

def setDin (fs : Fs) (slot : CacheSlot) (d : Dinode) : Fs :=
  let ip := fs.icache slot
  setInode fs slot { ip with din := d }

def iget (fs : Fs) (inum : Nat) : Except Stop (CacheSlot × Fs) :=
  match (List.finRange ninode).find? fun slot =>
      decide (0 < (fs.icache slot).ref ∧ (fs.icache slot).inum = inum) with
  | some slot =>
    let ip := fs.icache slot
    .ok (slot, setInode fs slot { ip with ref := ip.ref + 1 })
  | none =>
    match (List.finRange ninode).find? fun slot => decide ((fs.icache slot).ref = 0) with
    | some slot =>
      let ip := fs.icache slot
      .ok (slot, setInode fs slot
        { ip with inum := inum, ref := 1, busy := false, valid := false })
    | none => .error .noCacheEntries

def idup (fs : Fs) (slot : CacheSlot) : Fs :=
  let ip := fs.icache slot
  setInode fs slot { ip with ref := ip.ref + 1 }

def ilock (fs : Fs) (slot : CacheSlot) : Except Stop Fs :=
  let ip := fs.icache slot
  if ip.ref < 1 then .error .ilock
  else if ip.busy then .error .asleep
  else if ip.valid then .ok (setInode fs slot { ip with busy := true })
  else do
    let buf ← bread fs none (iblock ip.inum fs.sb)
    let din := readDinode buf (dinodeoffset ip.inum fs.sb)
    if din.type = 0 then .error .noType
    else .ok (setInode fs slot { ip with busy := true, valid := true, din := din })

def iunlock (fs : Fs) (slot : CacheSlot) : Except Stop Fs :=
  let ip := fs.icache slot
  if ip.busy = false ∨ ip.ref < 1 then .error .iunlock
  else .ok (setInode fs slot { ip with busy := false })

def iupdate (fs : Fs) (slot : CacheSlot) : Except Stop Fs := do
  let ip := fs.icache slot
  let buf ← bread fs none (iblock ip.inum fs.sb)
  .ok (logWrite fs (iblock ip.inum fs.sb) (writeDinode buf (dinodeoffset ip.inum fs.sb) ip.din))

/-- The first of `count` inodes from `inum` on whose type on disk is zero. -/
def scanInodes (fs : Fs) : Nat → Nat → Except Stop (Option Nat)
  | 0, _ => .ok none
  | count + 1, inum => do
    let buf ← bread fs none (iblock inum fs.sb)
    if (readDinode buf (dinodeoffset inum fs.sb)).type = 0 then .ok (some inum)
    else scanInodes fs count (inum + 1)

/-- The group with the lowest utilisation below 100 percent, group 0 if there is none. -/
def leastUsedGroup (fs : Fs) : Nat :=
  ((List.range fs.sb.nblockgroups).foldl (fun best group =>
    let percent := percentFull (fs.disk (statblock group fs.sb))
    if 0 < best.2 ∧ percent < best.2 then (group, percent) else best) (0, 100)).1

def claimInode (fs : Fs) (inum : Nat) (type : BitVec 16) : Fs :=
  let block := iblock inum fs.sb
  let fs := logWrite fs block (writeDinode (fs.disk block) (dinodeoffset inum fs.sb)
    { Dinode.blank with type := type })
  let group := bgroup inum fs.sb
  let used := (usedBlocks (fs.disk (statblock group fs.sb)) + 1) % 2 ^ 32
  { fs with disk := storeStats fs.sb fs.disk group used }

def ialloc (fs : Fs) (type : BitVec 16) (cwd : Nat) : Except Stop (CacheSlot × Fs) := do
  if type = tDir then
    let lub := leastUsedGroup fs
    let first := if lub = 0 then 1 else lub * fs.sb.ipbg
    match ← scanInodes fs (lub * fs.sb.ipbg + fs.sb.ipbg - first) first with
    | some inum => iget (claimInode fs inum type) inum
    | none => .error .noInodes
  else
    let head := inodeHead cwd fs.sb
    let first := if head = 0 then 1 else head
    match ← scanInodes fs fs.sb.ninodes first with
    | some inum => iget (claimInode fs inum type) inum
    | none =>
      match ← scanInodes fs fs.sb.ninodes 1 with
      | some inum => iget (claimInode fs inum type) inum
      | none => .error .noMoreFreeInodes

def fillAddr (fs : Fs) (slot : CacheSlot) (index cwd : Nat) : Except Stop Fs := do
  if (fs.icache slot).din.addr index = 0 then
    let (addr, fs) ← balloc fs none cwd
    .ok (setDin fs slot ((fs.icache slot).din.setAddr index addr))
  else .ok fs

def fillEntry (fs : Fs) (slot : CacheSlot) (index cwd : Nat) : Except Stop Fs := do
  let indirect := (fs.icache slot).din.addr ndirect
  let buf ← bread fs none indirect
  if readLE buf (sizeofUint * index) sizeofUint = 0 then
    let (addr, fs) ← balloc fs (some indirect) cwd
    .ok (logWrite fs indirect (writeLE (fs.disk indirect) (sizeofUint * index) sizeofUint addr))
  else .ok fs

def bmap (fs : Fs) (slot : CacheSlot) (bn cwd : Nat) : Except Stop (Nat × Fs) := do
  if bn < ndirect then
    let fs ← fillAddr fs slot bn cwd
    .ok ((fs.icache slot).din.addr bn, fs)
  else if bn - ndirect < nindirect then
    let fs ← fillAddr fs slot ndirect cwd
    let fs ← fillEntry fs slot (bn - ndirect) cwd
    .ok (refAt fs.disk (fs.icache slot).din (.entry (bn - ndirect)), fs)
  else .error .outOfRange

def storeBytes (fs : Fs) (blockno off : Nat) (bytes : List Byte) : Except Stop Fs := do
  let buf ← bread fs none blockno
  .ok (logWrite fs blockno (copyInto buf off bytes))

theorem in_block_room (off : Nat) : 0 < bsize - off % bsize := by
  simp only [bsize]
  omega

/-- The loop of `writei`; it returns the offset reached. -/
def writeLoop (fs : Fs) (slot : CacheSlot) (src : List Byte) (off cwd : Nat) :
    Except Stop (Nat × Fs) :=
  if src = [] then .ok (off, fs)
  else do
    let (addr, fs) ← bmap fs slot (off / bsize) cwd
    let m := min src.length (bsize - off % bsize)
    let fs ← storeBytes fs addr (off % bsize) (src.take m)
    writeLoop fs slot (src.drop m) (off + m) cwd
termination_by src.length
decreasing_by
  have room := in_block_room off
  have nonempty := List.length_pos_iff.mpr ‹src ≠ []›
  simp only [List.length_drop]
  omega

/-- `ip->size = off; iupdate(ip)` at the end of `writei`. -/
def growSize (fs : Fs) (slot : CacheSlot) (off : Nat) : Except Stop Fs :=
  let din := (fs.icache slot).din
  iupdate (setDin fs slot { din with size := BitVec.ofNat 32 off }) slot

/-- `device` is the result of the device's own write function, if there is one. -/
def writei (fs : Fs) (device : BitVec 16 → Option Int) (slot : CacheSlot) (src : List Byte)
    (off cwd : Nat) : Except Stop (Int × Fs) := do
  let din := (fs.icache slot).din
  if din.type = tDev then .ok ((device din.major).getD (-1), fs)
  else if din.size.toNat < off ∨ 2 ^ 32 ≤ off + src.length then .ok (-1, fs)
  else if maxfile * bsize < off + src.length then .ok (-1, fs)
  else
    let (last, fs) ← writeLoop fs slot src off cwd
    if src ≠ [] ∧ (fs.icache slot).din.size.toNat < last then
      let fs ← growSize fs slot last
      .ok (src.length, fs)
    else .ok (src.length, fs)

def freeAddr (slot : CacheSlot) (fs : Fs) (index : Nat) : Except Stop Fs := do
  let addr := (fs.icache slot).din.addr index
  if addr = 0 then .ok fs
  else
    let fs ← bfree fs none addr
    .ok (setDin fs slot ((fs.icache slot).din.setAddr index 0))

def freeEntry (indirect : Nat) (buf : Buffer) (fs : Fs) (index : Nat) : Except Stop Fs :=
  let addr := readLE buf (sizeofUint * index) sizeofUint
  if addr = 0 then .ok fs else bfree fs (some indirect) addr

def freeIndirect (fs : Fs) (slot : CacheSlot) : Except Stop Fs :=
  let indirect := (fs.icache slot).din.addr ndirect
  if indirect = 0 then .ok fs
  else do
    let buf ← bread fs none indirect
    let fs ← (List.range nindirect).foldlM (freeEntry indirect buf) fs
    freeAddr slot fs ndirect

def itrunc (fs : Fs) (slot : CacheSlot) : Except Stop Fs := do
  let fs ← (List.range ndirect).foldlM (freeAddr slot) fs
  let fs ← freeIndirect fs slot
  growSize fs slot 0

def lastReference (ip : Inode) : Bool :=
  decide (ip.ref = 1) && ip.valid && decide (ip.din.nlink = 0)

def freeInode (fs : Fs) (slot : CacheSlot) : Except Stop Fs := do
  let fs ← itrunc fs slot
  let din := (fs.icache slot).din
  let fs ← iupdate (setDin fs slot { din with type := 0 }) slot
  let ip := fs.icache slot
  .ok (setInode fs slot { ip with busy := false, valid := false })

def releaseInode (fs : Fs) (slot : CacheSlot) : Except Stop Fs :=
  if lastReference (fs.icache slot) then
    if (fs.icache slot).busy then .error .iputBusy else freeInode fs slot
  else .ok fs

def iput (fs : Fs) (slot : CacheSlot) : Except Stop Fs := do
  let fs ← releaseInode fs slot
  let ip := fs.icache slot
  .ok (setInode fs slot { ip with ref := ip.ref - 1 })

theorem set_inode_same (fs : Fs) (slot : CacheSlot) (ip : Inode) :
    (setInode fs slot ip).icache slot = ip := update_self _ _ _

theorem set_inode_other (fs : Fs) (slot other : CacheSlot) (ip : Inode)
    (different : other ≠ slot) : (setInode fs slot ip).icache other = fs.icache other :=
  update_of_ne different _ _

theorem set_din_same (fs : Fs) (slot : CacheSlot) (d : Dinode) :
    ((setDin fs slot d).icache slot).din = d := by
  rw [setDin, set_inode_same]

theorem set_din_other (fs : Fs) (slot other : CacheSlot) (d : Dinode)
    (different : other ≠ slot) : (setDin fs slot d).icache other = fs.icache other :=
  set_inode_other fs slot other _ different

theorem set_din_entry (fs : Fs) (slot other : CacheSlot) (d : Dinode) :
    ((setDin fs slot d).icache other).inum = (fs.icache other).inum ∧
    ((setDin fs slot d).icache other).ref = (fs.icache other).ref ∧
    ((setDin fs slot d).icache other).valid = (fs.icache other).valid ∧
    ((setDin fs slot d).icache other).busy = (fs.icache other).busy := by
  by_cases same : other = slot
  · subst same
    rw [setDin, set_inode_same]
    exact ⟨rfl, rfl, rfl, rfl⟩
  · rw [set_din_other fs slot other d same]
    exact ⟨rfl, rfl, rfl, rfl⟩

def boot (disk : Store Buffer) : Fs :=
  let sb := readsb disk
  { sb := sb
    disk := fillFSStats sb (clearFSStats sb disk)
    icache := fun _ =>
      { inum := 0, ref := 0, busy := false, valid := false, din := Dinode.blank } }

end Xv6Hacks.KernelFs
