import Xv6Hacks.BlockAccounting

/-!
# Runs of the file system

A step is one call of `fs.c`, except that `bmap` and `writei` are cut into pieces
that call `balloc` at most once; `writei_is_run` puts the pieces together. A run may
start from any image `mkfs` accepts, after `iinit`. `fs.c` asks its callers to lock
an inode before they use its content and to hold a reference before they drop one,
and the steps require it.
-/

namespace Xv6Hacks.FileSystemRuns

open BlockAccounting BlockAllocation BlockGroupLayout BlockOwnership ByteBuffers DiskFormat Function
open GuardedRuns KernelCalls KernelFs WriteSequences

variable {fs after : Fs} {cwd n : Nat} {slot : CacheSlot} {files : List Mkfs.InputFile}
  {image : Mkfs.Image} {ip : Inode}

inductive Action where
  | ialloc (type : BitVec 16) (cwd : Nat)
  | iget (inum : Nat)
  | idup (slot : CacheSlot)
  | ilock (slot : CacheSlot)
  | iunlock (slot : CacheSlot)
  | iput (slot : CacheSlot)
  | fillAddr (slot : CacheSlot) (index cwd : Nat)
  | fillEntry (slot : CacheSlot) (index cwd : Nat)
  | storeBytes (slot : CacheSlot) (bn off : Nat) (bytes : List Byte)
  | growSize (slot : CacheSlot) (off : Nat)
  | setFields (slot : CacheSlot) (major minor nlink : BitVec 16)

def locked (ip : Inode) : Bool := decide (0 < ip.ref) && ip.busy && ip.valid

/-- `create`, `link` and `unlink` change these fields of an inode and call `iupdate`. -/
def setFields (fs : Fs) (slot : CacheSlot) (major minor nlink : BitVec 16) : Except Stop Fs :=
  let din := (fs.icache slot).din
  iupdate (setDin fs slot { din with major := major, minor := minor, nlink := nlink }) slot

def step (fs : Fs) : Action → Except Stop Fs
  | .ialloc type cwd => do
    let (_, fs) ← ialloc fs type cwd
    .ok fs
  | .iget inum => do
    let (_, fs) ← iget fs inum
    .ok fs
  | .idup slot => if 0 < (fs.icache slot).ref then .ok (idup fs slot) else .error .notLocked
  | .ilock slot => ilock fs slot
  | .iunlock slot => iunlock fs slot
  | .iput slot => if 0 < (fs.icache slot).ref then iput fs slot else .error .notLocked
  | .fillAddr slot index cwd =>
    if locked (fs.icache slot) = true ∧ index < ndirect + 1 then fillAddr fs slot index cwd
    else .error .notLocked
  | .fillEntry slot index cwd =>
    if locked (fs.icache slot) = true ∧ index < nindirect ∧
        (fs.icache slot).din.addr ndirect ≠ 0 then fillEntry fs slot index cwd
    else .error .notLocked
  | .storeBytes slot bn off bytes =>
    if locked (fs.icache slot) = true ∧
        refAt fs.disk (fs.icache slot).din (blockPlace bn) ≠ 0 then
      storeBytes fs (refAt fs.disk (fs.icache slot).din (blockPlace bn)) off bytes
    else .error .notLocked
  | .growSize slot off =>
    if locked (fs.icache slot) = true then growSize fs slot off else .error .notLocked
  | .setFields slot major minor nlink =>
    if locked (fs.icache slot) = true then setFields fs slot major minor nlink
    else .error .notLocked

def next (fs : Fs) (action : Action) : Option Fs := (step fs action).toOption

/-- A deleted inode holds no block, and a block that is handed out is a clean one. -/
def Clean (fs : Fs) : Action → Prop
  | .iput slot => lastReference (fs.icache slot) = true → HoldsNoBlock (fs.icache slot).din
  | .fillAddr slot index cwd =>
    (fs.icache slot).din.addr index = 0 → ∀ v, FirstFree fs cwd v → CleanBlock v
  | .fillEntry slot index cwd =>
    refAt fs.disk (fs.icache slot).din (.entry index) = 0 →
      ∀ v, FirstFree fs cwd v → CleanBlock v
  | _ => True

def Allocated (fs : Fs) (inum : Nat) : Prop := (inodes fs inum).type ≠ 0

/-- No block has two references, and each block with a reference is the physical block
of a virtual one whose bit is set. -/
structure BlocksAccounted (fs : Fs) : Prop where
  single : ∀ inum place other elsewhere, Allocated fs inum → Allocated fs other →
    refAt fs.disk (inodes fs inum) place ≠ 0 →
    refAt fs.disk (inodes fs inum) place = refAt fs.disk (inodes fs other) elsewhere →
      inum = other ∧ place = elsewhere
  marked : ∀ inum place, Allocated fs inum → refAt fs.disk (inodes fs inum) place ≠ 0 →
    ∃ v, refAt fs.disk (inodes fs inum) place = dblock v fs.sb ∧ Taken fs v

theorem locked_live (held : locked (fs.icache slot) = true) :
    Live fs slot (fs.icache slot).inum := by
  simp only [locked, Bool.and_eq_true, decide_eq_true_eq] at held
  exact ⟨held.1.1, held.2, rfl⟩

theorem step_accounted {action : Action} (accounted : Accounted fs) (clean : Clean fs action)
    (taken : step fs action = .ok after) : Accounted after := by
  cases action with
  | ialloc type cwd =>
    simp only [step, bind_ok, Prod.exists] at taken
    obtain ⟨slot, middle, allocated, result⟩ := taken
    cases result
    exact ialloc_accounted accounted allocated
  | iget inum =>
    simp only [step, bind_ok, Prod.exists] at taken
    obtain ⟨slot, middle, got, result⟩ := taken
    cases result
    exact iget_accounted accounted got
  | idup slot =>
    simp only [step] at taken
    split at taken
    · rename_i used
      cases taken
      exact set_inode_accounted accounted slot _ rfl (fun _ => used) rfl id
    · contradiction
  | ilock slot => exact ilock_accounted accounted taken
  | iunlock slot =>
    simp only [step, iunlock] at taken
    split at taken
    · contradiction
    · cases taken
      exact set_inode_accounted accounted slot _ rfl id rfl id
  | iput slot =>
    simp only [step] at taken
    split at taken
    · exact iput_accounted accounted clean taken
    · contradiction
  | fillAddr slot index cwd =>
    simp only [step] at taken
    split at taken
    · rename_i held
      exact fill_addr_accounted accounted (locked_live held.1) held.2 clean taken
    · contradiction
  | fillEntry slot index cwd =>
    simp only [step] at taken
    split at taken
    · rename_i held
      exact fill_entry_accounted accounted (locked_live held.1) held.2.1 held.2.2 clean taken
    · contradiction
  | storeBytes slot bn off bytes =>
    simp only [step] at taken
    split at taken
    · rename_i held
      exact store_bytes_accounted accounted (locked_live held.1) held.2 taken
    · contradiction
  | growSize slot off =>
    simp only [step] at taken
    split at taken
    · rename_i held
      exact (grow_size_accounted accounted (locked_live held) taken).1
    · contradiction
  | setFields slot major minor nlink =>
    simp only [step, setFields] at taken
    split at taken
    · rename_i held
      exact (relabel_update_accounted accounted (locked_live held) _ (by rfl) taken).1
    · contradiction

/-- The statistics change nothing but the end of the last inode block of each group. -/
structure SameButStats (disk after : Store Buffer) : Prop where
  load : ∀ inum, loadDinode after layoutSb inum = loadDinode disk layoutSb inum
  block : ∀ blockno, (∀ group, blockno ≠ statblock group layoutSb) →
    after blockno = disk blockno

theorem store_stats_fold (count : Store Buffer → Nat → Nat) (groups : List Nat)
    (disk : Store Buffer) : SameButStats disk
    (groups.foldl (fun disk group => storeStats layoutSb disk group (count disk group)) disk) := by
  induction groups generalizing disk with
  | nil => exact ⟨fun _ => rfl, fun _ _ => rfl⟩
  | cons group rest ih =>
    rw [List.foldl_cons]
    obtain ⟨load, block⟩ := ih (storeStats layoutSb disk group (count disk group))
    constructor
    · intro inum
      rw [load, load_store_stats]
    · intro blockno different
      rw [block blockno different, stats_block_other _ _ _ _ (different group)]

theorem boot_disk {disk : Store Buffer} (layout : readsb disk = layoutSb) :
    SameButStats disk (boot disk).disk := by
  have cleared := store_stats_fold (fun _ _ => 0) (List.range layoutSb.nblockgroups) disk
  have filled := store_stats_fold (inodesInUse layoutSb)
    (List.range layoutSb.nblockgroups) (clearFSStats layoutSb disk)
  simp only [boot, layout]
  constructor
  · intro inum
    exact (filled.load inum).trans (cleared.load inum)
  · intro blockno different
    exact (filled.block blockno different).trans (cleared.block blockno different)

section
variable (accepted : Mkfs.mkfs files = some image)
include accepted

theorem boot_bits (v : Nat) (inside : v < bpb) :
    Taken (boot image.sector) v ↔ v < image.freeblock := by
  have layout : readsb image.sector = layoutSb :=
    MkfsInodes.image_superblock (MkfsInodes.mkfs_built accepted)
  have sbSame : (boot image.sector).sb = layoutSb := layout
  have first : bblock v layoutSb = Mkfs.sb.bgstart := by
    rw [bpb_value] at inside
    rw [bblock_eq, show Mkfs.sb.bgstart = 32 by rfl]
    omega
  rw [Taken, sbSame, (boot_disk layout).block _ fun group => bblock_ne_statblock v group, first,
    (MkfsInodes.mkfs_bitmap accepted).1, MkfsInodes.bitmap_bit, Nat.mod_eq_of_lt inside,
    decide_eq_true_eq]

theorem boot_layout : readsb image.sector = layoutSb :=
  MkfsInodes.image_superblock (MkfsInodes.mkfs_built accepted)

theorem boot_data (v : Nat) (inside : v % ndatablocks ≠ 0) :
    (boot image.sector).disk (dblock v layoutSb) = image.sector (dblock v layoutSb) :=
  (boot_disk (boot_layout accepted)).block _ fun group => dblock_ne_statblock v group inside

open Xv6Hacks.MkfsInodes in
theorem boot_record {inum : Nat} (inside : inum < layoutSb.ninodes) :
    loadDinode (boot image.sector).disk layoutSb inum = Dinode.blank ∨
    (loadedFrom inum / 29 = inum / 29 ∧ loadDinode (boot image.sector).disk layoutSb inum =
    ImageConsistency.view image (loadedFrom inum)) := by
  have layout := boot_layout accepted
  have count : layoutSb.ninodes = 725 := by decide
  have groups : blockgroups = 25 := rfl
  rw [(boot_disk layout).load, ← layout, kernel_load (mkfs_built accepted) inum (by omega)]
  split
  · rename_i inGroup
    exact .inr ⟨inGroup, rfl⟩
  · exact .inl rfl

end

theorem boot_idle (disk : Store Buffer) (slot : CacheSlot) (inum : Nat) :
    ¬ Live (boot disk) slot inum := by
  intro live
  exact absurd live.ref (lt_irrefl 0)

open Xv6Hacks.MkfsInodes in
theorem boot_accounted (accepted : Mkfs.mkfs files = some image) :
    Accounted (boot image.sector) := by
  have built := mkfs_built accepted
  have layout := boot_layout accepted
  have idle := boot_idle image.sector
  have sbSame : (boot image.sector).sb = layoutSb := layout
  have framed := built.sound.owned.frame (ImageConsistency.view image)
    (boot image.sector).disk (fun _ => rfl) (boot_data accepted)
  have number (inum : Nat) : inodes (boot image.sector) inum = Dinode.blank ∨
      (loadedFrom inum / 29 = inum / 29 ∧
        inodes (boot image.sector) inum = ImageConsistency.view image (loadedFrom inum)) := by
    rw [inodes, sbSame]
    split
    · rename_i inside
      rw [inode_of_idle fun slot => idle slot inum, sbSame]
      exact boot_record accepted inside
    · exact .inl rfl
  have owned : Owned blockgroups (fun v => v < image.freeblock) (inodes (boot image.sector))
      (boot image.sector).disk := by
    constructor
    · intro inum place held
      rcases number inum with blank | ⟨-, viewed⟩
      · rw [blank, ref_at_blank] at held
        exact absurd rfl held
      · rw [viewed] at held ⊢
        exact framed.mapped _ place held
    · intro inum place other elsewhere held equal
      rcases number inum with blank | ⟨inGroup, viewed⟩
      · rw [blank, ref_at_blank] at held
        exact absurd rfl held
      · rcases number other with otherBlank | ⟨otherIn, otherViewed⟩
        · rw [otherBlank, ref_at_blank] at equal
          exact absurd equal held
        · rw [viewed] at held equal
          rw [otherViewed] at equal
          obtain ⟨sameNumber, samePlace⟩ := framed.distinct _ place _ elsewhere held equal
          exact ⟨loaded_from_injective inum other inGroup otherIn sameNumber, samePlace⟩
    · exact framed.blank
  have small := (mkfs_bitmap accepted).2.2
  refine ⟨layout, ?_, ?_, ?_, owned.mark _ ?_⟩
  · intro left _ used
    exact absurd used (lt_irrefl 0)
  · intro slot inum live
    exact absurd live (idle slot inum)
  · intro slot inum live
    exact absurd live (idle slot inum)
  · intro v below
    exact (boot_bits accepted v (by omega)).mpr below

structure Holding (fs : Fs) (slot : CacheSlot) : Prop where
  layout : fs.sb = layoutSb
  held : locked (fs.icache slot) = true

theorem set_din_locked (fs : Fs) (slot : CacheSlot) (d : Dinode) :
    locked ((setDin fs slot d).icache slot) = locked (fs.icache slot) := by
  obtain ⟨-, ref, valid, busy⟩ := set_din_entry fs slot slot d
  rw [locked, locked, ref, valid, busy]

theorem dblock_positive (v : Nat) : dblock v layoutSb ≠ 0 := by
  rw [dblock_eq]
  omega

section
variable (holding : Holding fs slot)
include holding

theorem fill_addr_holding {index : Nat} (inside : index < ndirect + 1)
    (filled : fillAddr fs slot index cwd = .ok after) :
    Holding after slot ∧ (after.icache slot).din.addr index ≠ 0 := by
  have layout := holding.layout
  rcases fill_addr_ok layout filled with ⟨present, rfl⟩ | ⟨-, v, first, rfl⟩
  · exact ⟨holding, present⟩
  · constructor
    · constructor
      · exact layout
      · rw [set_din_locked]
        exact holding.held
    · rw [set_din_same, Dinode.addr_set_same _ _ _ inside (first_free_uint layout first)]
      exact dblock_positive v

theorem fill_entry_holding {index : Nat} (inside : index < nindirect)
    (indirect : (fs.icache slot).din.addr ndirect ≠ 0)
    (filled : fillEntry fs slot index cwd = .ok after) :
    Holding after slot ∧ refAt after.disk (after.icache slot).din (.entry index) ≠ 0 := by
  have layout := holding.layout
  have real : ¬ ((fs.icache slot).din.addr ndirect = 0 ∨ nindirect ≤ index) := by
    rintro (absent | beyond)
    · exact indirect absent
    · omega
  rcases fill_entry_ok layout filled with ⟨present, rfl⟩ | ⟨-, v, first, rfl⟩
  · constructor
    · exact holding
    · rw [refAt, if_neg real]
      exact present
  · constructor
    · exact ⟨layout, holding.held⟩
    · rw [refAt]
      split
      · contradiction
      · simp only [logWrite, afterTake]
        rw [update_self, read_le_write_same, show 256 ^ sizeofUint = 2 ^ 32 by
          decide, Nat.mod_eq_of_lt (first_free_uint layout first)]
        exact dblock_positive v

theorem bmap_is_run {bn p : Nat} (mapped : bmap fs slot bn cwd = .ok (p, after)) :
    Reaches next (fun _ _ => True) fs after ∧ Holding after slot ∧ p ≠ 0 ∧
    p = refAt after.disk (after.icache slot).din (blockPlace bn) := by
  obtain ⟨rfl, ⟨direct, first⟩ | ⟨beyond, inside, withIndirect, first, second⟩⟩ := bmap_ok mapped
  · have inside : bn < ndirect + 1 := by omega
    obtain ⟨still, present⟩ := fill_addr_holding holding inside first
    have taken : next fs (.fillAddr slot bn cwd) = some after := by
      simp only [next, step, if_pos (And.intro holding.held inside), first]
      rfl
    rw [blockPlace, if_pos direct]
    exact ⟨Reaches.next _ Reaches.start trivial taken, still, present, rfl⟩
  · obtain ⟨middle, indirect⟩ := fill_addr_holding holding ndirect.lt_succ_self first
    obtain ⟨still, present⟩ := fill_entry_holding middle inside indirect second
    have takenFirst : next fs (.fillAddr slot ndirect cwd) = some withIndirect := by
      simp only [next, step, if_pos (And.intro holding.held ndirect.lt_succ_self), first]
      rfl
    have takenSecond : next withIndirect (.fillEntry slot (bn - ndirect) cwd) = some after := by
      simp only [next, step, if_pos (And.intro middle.held (And.intro inside indirect)), second]
      rfl
    rw [blockPlace, if_neg beyond]
    exact ⟨Reaches.next _ (Reaches.next _ Reaches.start trivial takenFirst) trivial
      takenSecond, still, present, rfl⟩

theorem store_bytes_is_step {bn off : Nat} {bytes : List Byte}
    (present : refAt fs.disk (fs.icache slot).din (blockPlace bn) ≠ 0)
    (stored : storeBytes fs (refAt fs.disk (fs.icache slot).din (blockPlace bn)) off bytes =
    .ok after) : next fs (.storeBytes slot bn off bytes) = some after ∧ Holding after slot := by
  constructor
  · simp only [next, step, if_pos (And.intro holding.held present), stored]
    rfl
  · obtain rfl := store_bytes_ok stored
    exact ⟨holding.layout, holding.held⟩

/-- A call of `writei` on a locked inode takes these steps and no others. -/
theorem writei_is_run {device : BitVec 16 → Option Int} {src : List Byte} {off : Nat} {count : Int}
    (wrote : writei fs device slot src off cwd = .ok (count, after)) :
    Reaches next (fun _ _ => True) fs after := by
  rcases writei_ok wrote with rfl | ⟨-, -, last, written, looped, ended⟩
  · exact .start
  have done : Reaches next (fun _ _ => True) fs written ∧ Holding written slot := by
    apply @write_loop_rule fs written slot cwd
      (fun now _ _ => Reaches next (fun _ _ => True) fs now ∧ Holding now slot) _ src off _
      ⟨.start, holding⟩ looped
    rintro before src off addr mapped stored - ⟨reached, held⟩ first second
    obtain ⟨later, middle, present, rfl⟩ := bmap_is_run held first
    obtain ⟨taken, still⟩ := store_bytes_is_step middle present second
    exact ⟨Reaches.next _ (reached.trans later) trivial taken, still⟩
  rcases ended with rfl | grew
  · exact done.1
  · apply Reaches.next (.growSize slot last) done.1 trivial
    simp only [next, step, if_pos done.2.held, grew]
    rfl

end

theorem Accounted.blocks_accounted (accounted : Accounted fs) : BlocksAccounted fs := by
  constructor
  · intro inum place other elsewhere _ _ held same
    exact accounted.owned.distinct inum place other elsewhere held same
  · intro inum place _ held
    obtain ⟨v, -, taken, equal⟩ := accounted.owned.mapped inum place held
    exact ⟨v, accounted.layout ▸ equal, taken⟩

/-- From any image of `mkfs`, as long as deleted inodes hold no block and `balloc`
hands out clean blocks. -/
theorem blocks_accounted_over_runs {files : List Mkfs.InputFile} {image : Mkfs.Image}
    (accepted : Mkfs.mkfs files = some image) {fs : Fs}
    (reached : Reaches next Clean (boot image.sector) fs) : BlocksAccounted fs ∧
      ∀ slot, Clean fs (.iput slot) → step fs (.iput slot) ≠ .error .freeingFreeBlock := by
  have accounted : Accounted fs := by
    apply reaches_invariant Accounted (boot_accounted accepted) _ reached
    intro before action after kept clean taken
    rw [next] at taken
    cases result : step before action with
    | error stop =>
      rw [result] at taken
      contradiction
    | ok state =>
      rw [result] at taken
      cases taken
      exact step_accounted kept clean result
  constructor
  · exact Accounted.blocks_accounted accounted
  · intro slot clean
    simp only [step]
    split
    · exact iput_not_freeing clean
    · simp

/-- What is known along the run: entry 0 of the cache holds the new file, and the bits
below `n` are set in the bitmap of group 0. -/
structure NewFile (fs : Fs) (n : Nat) (ip : Inode) : Prop where
  layout : fs.sb = layoutSb
  super : readSuperblock (fs.disk 1) = layoutSb
  bits : ∀ u, u < bpb → (Taken fs u ↔ u < n)
  entry : fs.icache 0 = ip
  inside : ip.inum < layoutSb.ninodes

section
variable (file : NewFile fs n ip)
include file

theorem NewFile.frame (sameSb : after.sb = fs.sb) (sameCache : after.icache = fs.icache)
    (super : after.disk 1 = fs.disk 1)
    (bitmaps : ∀ u, after.disk (bblock u layoutSb) = fs.disk (bblock u layoutSb)) :
    NewFile after n ip := by
  constructor
  · rw [sameSb]
    exact file.layout
  · rw [super]
    exact file.super
  · intro u bound
    rw [← file.bits u bound, Taken, Taken, sameSb, file.layout, bitmaps]
  · rw [sameCache]
    exact file.entry
  · exact file.inside

theorem NewFile.write (blockno : Nat) (data : Buffer) (notSuper : 1 ≠ blockno)
    (notBitmap : ∀ u, bblock u layoutSb ≠ blockno) : NewFile (logWrite fs blockno data) n ip := by
  apply file.frame
  · rfl
  · rfl
  · exact log_write_other fs _ _ data notSuper
  · exact fun u => log_write_other fs _ _ data (notBitmap u)

theorem NewFile.set_inode (new : Inode) (same : new.inum = ip.inum) :
    NewFile (setInode fs 0 new) n new :=
  ⟨file.layout, file.super, file.bits, set_inode_same fs 0 new, same ▸ file.inside⟩

theorem NewFile.iupdate : ∃ after, iupdate fs 0 = .ok after ∧ NewFile after n ip := by
  have onDisk := (iblock_on_disk_iff ip.inum).mpr file.inside
  refine ⟨logWrite fs (iblock ip.inum layoutSb) (writeDinode (fs.disk (iblock ip.inum layoutSb))
    (dinodeoffset ip.inum layoutSb) ip.din), ?_, ?_⟩
  · simp only [KernelFs.iupdate, bread, file.entry, file.layout, reduceCtorEq, ↓reduceIte,
      if_pos onDisk]
    rfl
  · apply file.write
    · rw [iblock_eq]
      omega
    · intro u same
      exact iblock_ne_bblock ip.inum u same.symm

theorem NewFile.update_din (d : Dinode) : ∃ after, KernelFs.iupdate (setDin fs 0 d) 0 = .ok after ∧
      NewFile after n { ip with din := d } := by
  have changed : NewFile (setDin fs 0 d) n { ip with din := d } := by
    rw [setDin, file.entry]
    exact file.set_inode _ rfl
  exact changed.iupdate

end

theorem scan_inodes_second (layout : fs.sb = layoutSb)
    (free : (loadDinode fs.disk layoutSb 2).type = 0) (count : Nat) :
    ∃ inum, 0 < inum ∧ inum < 3 ∧ scanInodes fs (count + 2) 1 = .ok (some inum) := by
  have firstRead : bread fs none (iblock 1 layoutSb) = .ok (fs.disk (iblock 1 layoutSb)) := by
    simp only [bread, reduceCtorEq, ↓reduceIte, if_pos ((iblock_on_disk_iff 1).mpr (by decide))]
  have secondRead : bread fs none (iblock 2 layoutSb) = .ok (fs.disk (iblock 2 layoutSb)) := by
    simp only [bread, reduceCtorEq, ↓reduceIte, if_pos ((iblock_on_disk_iff 2).mpr (by decide))]
  rw [loadDinode] at free
  by_cases root : (loadDinode fs.disk layoutSb 1).type = 0
  · rw [loadDinode] at root
    refine ⟨1, by decide, by decide, ?_⟩
    simp only [scanInodes, layout, firstRead, root, ↓reduceIte, bind, Except.bind]
  · rw [loadDinode] at root
    refine ⟨2, by decide, by decide, ?_⟩
    simp only [scanInodes, layout, firstRead, secondRead, root, free, ↓reduceIte, bind, Except.bind]

theorem NewFile.claim_inode (file : NewFile fs n ip) (inum : Nat) (type : BitVec 16) :
    NewFile (claimInode fs inum type) n ip ∧
      loadDinode (claimInode fs inum type).disk layoutSb inum =
        { Dinode.blank with type := type } := by
  have sameSb (blockno : Nat) (data : Buffer) : (logWrite fs blockno data).sb = fs.sb := rfl
  constructor
  · apply file.frame
    · rfl
    · rfl
    · simp only [claimInode, sameSb, file.layout]
      rw [stats_block_other _ _ _ _ (by rw [statblock_eq]; omega),
        log_write_other _ _ _ _ (by rw [iblock_eq]; omega)]
    · intro u
      simp only [claimInode, sameSb, file.layout]
      rw [stats_block_other _ _ _ _ (bblock_ne_statblock u _),
        log_write_other _ _ _ _ (iblock_ne_bblock inum u).symm]
  · simp only [claimInode, sameSb, file.layout]
    rw [load_store_stats]
    exact load_write_same fs.disk inum _

theorem boot_new_file (accepted : Mkfs.mkfs [] = some image) :
    ∃ after ip, step (boot image.sector) (.ialloc tFile 1) = .ok after ∧
      NewFile after image.freeblock ip ∧ ip.ref = 1 ∧ ip.busy = false ∧ ip.valid = false ∧
      loadDinode after.disk layoutSb ip.inum = { Dinode.blank with type := tFile } ∧
      0 < ip.inum ∧ ip.inum < 3 := by
  have built := MkfsInodes.mkfs_built accepted
  have layout : readsb image.sector = layoutSb := MkfsInodes.image_superblock built
  have same := boot_disk layout
  have booted : NewFile (boot image.sector) image.freeblock ((boot image.sector).icache 0) := by
    constructor
    · exact layout
    · rw [same.block 1 fun group => by rw [statblock_eq]; omega]
      exact layout
    · intro u bound
      exact boot_bits accepted u bound
    · rfl
    · show 0 < layoutSb.ninodes
      decide
  have free : (loadDinode (boot image.sector).disk layoutSb 2).type = 0 := by
    have unwritten := built.unwritten 2 (by rw [built.freeinode]; decide)
    rw [same.load, ← layout, MkfsInodes.kernel_load built 2 (by decide)]
    split
    · rw [show MkfsInodes.loadedFrom 2 = 2 by decide, ImageConsistency.view, unwritten]
      rfl
    · rfl
  obtain ⟨inum, positive, early, found⟩ := scan_inodes_second layout free 723
  have inside : inum < layoutSb.ninodes := Nat.lt_trans early (by decide)
  obtain ⟨claimed, loaded⟩ := booted.claim_inode inum tFile
  refine ⟨setInode (claimInode (boot image.sector) inum tFile) 0
    { (boot image.sector).icache 0 with inum := inum, ref := 1, busy := false, valid := false },
    _, ?_, ⟨claimed.layout, claimed.super, claimed.bits, set_inode_same _ _ _, inside⟩,
    rfl, rfl, rfl, loaded, positive, early⟩
  have plain : (tFile = tDir) = False := by decide
  have head : inodeHead 1 (boot image.sector).sb = 0 := by
    rw [booted.layout]
    decide
  have total : (boot image.sector).sb.ninodes = 723 + 2 := by
    rw [booted.layout]
    decide
  simp only [step, ialloc, plain, ↓reduceIte, head, total, found]
  rfl

section
variable (file : NewFile fs n ip)
include file

theorem NewFile.lock (ref : ip.ref = 1) (free : ip.busy = false) (unread : ip.valid = false)
    (typed : (loadDinode fs.disk layoutSb ip.inum).type ≠ 0) :
    ∃ after, step fs (.ilock 0) = .ok after ∧ NewFile after n
      { ip with busy := true, valid := true, din := loadDinode fs.disk layoutSb ip.inum } := by
  have onDisk := (iblock_on_disk_iff ip.inum).mpr file.inside
  refine ⟨setInode fs 0
    { ip with busy := true, valid := true, din := loadDinode fs.disk layoutSb ip.inum }, ?_,
    file.set_inode _ rfl⟩
  rw [loadDinode] at typed
  simp only [step, ilock, file.entry, file.layout, ref, free, unread, bread, if_pos onDisk, bind,
    Except.bind, lt_irrefl, Bool.false_eq_true, reduceCtorEq, ↓reduceIte, typed, loadDinode]

theorem NewFile.first_free (small : n < bpb) : FirstFree fs 1 n := by
  have start : searchStart fs 1 = 0 := by
    rw [searchStart, file.layout]
    decide
  have size : layoutSb.size = 101500 := by decide
  have width := bpb_value
  constructor
  · rw [file.layout, size]
    omega
  · rw [file.bits n small]
    exact lt_irrefl n
  · left
    refine ⟨by omega, ?_⟩
    intro u _ below
    exact (file.bits u (by omega)).mpr below

theorem NewFile.balloc (small : n < bpb) {held : Option Nat}
    (apart : ∀ u, held ≠ some (bblock u layoutSb)) (other : held ≠ some n) :
    KernelFs.balloc fs held 1 = .ok (dblock n layoutSb, afterTake fs n) := by
  rw [← file.layout] at apart ⊢
  exact balloc_first file.layout (file.first_free small) apart other

theorem NewFile.take (lower : 157 ≤ n) (upper : n < 4000) :
    NewFile (afterTake fs n) (n + 1) ip := by
  have notBitmap (u : Nat) : bblock u layoutSb ≠ n := by
    rw [bblock_eq]
    omega
  constructor
  · exact file.layout
  · simp only [afterTake, file.layout]
    rw [update_of_ne (by omega), update_of_ne (by rw [bblock_eq]; omega)]
    exact file.super
  · intro u bound
    rw [taken_after_take file.layout (notBitmap u), file.bits u bound]
    omega
  · exact file.entry
  · exact file.inside

theorem NewFile.fill_empty {index : Nat} (empty : ip.din.addr index = 0) (lower : 157 ≤ n)
    (upper : n < 4000) : fillAddr fs 0 index 1 =
        .ok (setDin (afterTake fs n) 0 (ip.din.setAddr index (n + 36))) ∧
      NewFile (setDin (afterTake fs n) 0 (ip.din.setAddr index (n + 36))) (n + 1)
        { ip with din := ip.din.setAddr index (n + 36) } := by
  have width := bpb_value
  have place : dblock n layoutSb = n + 36 := by
    rw [dblock_eq]
    omega
  have took := file.take lower upper
  constructor
  · simp only [fillAddr, file.entry, empty, ↓reduceIte, place, bind, Except.bind, took.entry,
      file.balloc (by omega) (fun u => (Option.some_ne_none _).symm)
        (Option.some_ne_none _).symm]
  · rw [setDin, took.entry]
    exact took.set_inode _ rfl

section
variable (held : locked ip = true)
include held

theorem NewFile.fill_addr (empty : ip.din.addr 0 = 0) (lower : 157 ≤ n) (upper : n < 4000) :
    Clean fs (.fillAddr 0 0 1) ∧ ∃ after, step fs (.fillAddr 0 0 1) = .ok after ∧
      NewFile after (n + 1) { ip with din := ip.din.setAddr 0 (n + 36) } := by
  have width := bpb_value
  obtain ⟨filled, kept⟩ := file.fill_empty empty lower upper
  constructor
  · intro _ v first
    rw [first_free_unique first (file.first_free (by omega))]
    refine ⟨?_, ?_⟩
    · rw [ndatablocks_value]
      omega
    · intro u
      rw [bblock_eq]
      omega
  · refine ⟨_, ?_, kept⟩
    simp only [step, file.entry, held]
    exact filled

theorem NewFile.set_fields (major minor nlink : BitVec 16) :
    ∃ after, step fs (.setFields 0 major minor nlink) = .ok after ∧
      NewFile after n { ip with din :=
        { ip.din with major := major, minor := minor, nlink := nlink } } := by
  obtain ⟨after, updated, kept⟩ :=
    file.update_din { ip.din with major := major, minor := minor, nlink := nlink }
  refine ⟨after, ?_, kept⟩
  simp only [step, setFields, file.entry, held, ↓reduceIte, updated]

theorem NewFile.grow_size (off : Nat) : ∃ after, step fs (.growSize 0 off) = .ok after ∧
      NewFile after n { ip with din := { ip.din with size := BitVec.ofNat 32 off } } := by
  obtain ⟨after, updated, kept⟩ := file.update_din { ip.din with size := BitVec.ofNat 32 off }
  refine ⟨after, ?_, kept⟩
  simp only [step, growSize, file.entry, held, ↓reduceIte, updated]

theorem NewFile.store_bytes (v : Nat) (first : ip.din.addr 0 = dblock v layoutSb)
    (onDisk : dblock v layoutSb < fssize blockgroups) (off : Nat) (bytes : List Byte) :
    ∃ after, step fs (.storeBytes 0 0 off bytes) = .ok after ∧ NewFile after n ip := by
  have place : refAt fs.disk ip.din (blockPlace 0) = dblock v layoutSb := first
  refine ⟨logWrite fs (dblock v layoutSb) (copyInto (fs.disk (dblock v layoutSb)) off bytes),
    ?_, ?_⟩
  · simp only [step, storeBytes, file.entry, held, place, bread_none onDisk, bind, Except.bind]
    rw [if_pos ⟨trivial, dblock_positive v⟩]
  · apply file.write
    · rw [dblock_eq]
      omega
    · exact fun u same => dblock_ne_bblock v u same.symm

theorem NewFile.unlock :
    ∃ after, step fs (.iunlock 0) = .ok after ∧ NewFile after n { ip with busy := false } := by
  simp only [locked, Bool.and_eq_true, decide_eq_true_eq] at held
  refine ⟨setInode fs 0 { ip with busy := false }, ?_, file.set_inode _ rfl⟩
  have allowed : ¬ (ip.busy = false ∨ ip.ref < 1) := by
    rw [held.1.2]
    simp only [Bool.true_eq_false, false_or]
    omega
  simp only [step, iunlock, file.entry, if_neg allowed]

end
end

/-- `bfree` looks at bit `n + 36`, the number of the block, in place of bit `n`. -/
theorem NewFile.delete (file : NewFile fs (n + 1) ip) (last : lastReference ip = true)
    (free : ip.busy = false) (first : ip.din.addr 0 = n + 36) (upper : n < 4000) :
    step fs (.iput 0) = .error .freeingFreeBlock := by
  have width := bpb_value
  have clear : ¬ Taken fs (n + 36) := by
    rw [file.bits (n + 36) (by omega)]
    omega
  rw [Taken, file.layout] at clear
  have onDisk : bblock (n + 36) layoutSb < fssize blockgroups := by
    rw [bblock_eq, fssize_eq, blockgroups]
    omega
  have freed : freeAddr 0 fs 0 = .error .freeingFreeBlock := by
    have present : n + 36 ≠ 0 := by omega
    simp only [freeAddr, bfree, file.entry, first, present, ↓reduceIte,
      bread_none (show 1 < fssize blockgroups by decide), file.super, bread_none onDisk, clear,
      bind, Except.bind, Bool.false_eq_true]
  have looped : (List.range ndirect).foldlM (freeAddr 0) fs = .error .freeingFreeBlock := by
    rw [ndirect_value, List.range_succ_eq_map, List.foldlM_cons, freed]
    rfl
  have used : 0 < ip.ref := by
    simp only [lastReference, Bool.and_eq_true, decide_eq_true_eq] at last
    omega
  simp only [step, iput, releaseInode, file.entry, used, last, free, freeInode, itrunc, looped,
    ↓reduceIte, Bool.false_eq_true, bind, Except.bind]

/-- A process in the root directory creates a file, writes one byte to it and unlinks
it; what is left is the last `iput`. -/
def createWriteUnlink : List Action :=
  [.ialloc tFile 1, .ilock 0, .setFields 0 0 0 1, .fillAddr 0 0 1, .storeBytes 0 0 0 [1],
    .growSize 0 1, .setFields 0 0 0 0, .iunlock 0]

theorem clean_reach {start : Fs} {action : Action} (reached : Reaches next Clean start fs)
    (taken : step fs action = .ok after) (clean : Clean fs action) :
    Reaches next Clean start after := by
  apply reached.next action clean
  rw [next, taken]
  rfl

theorem create_write_unlink (accepted : Mkfs.mkfs [] = some image)
    (upper : image.freeblock < 4000) :
    ∃ fs ip, run next (boot image.sector) createWriteUnlink = some fs ∧
    Reaches next Clean (boot image.sector) fs ∧
    NewFile fs (image.freeblock + 1) ip ∧ lastReference ip = true ∧ ip.busy = false ∧
    ip.din.addr 0 = image.freeblock + 36 := by
  have lower := (MkfsInodes.mkfs_bitmap accepted).2.1
  have place : dblock image.freeblock layoutSb = image.freeblock + 36 := by
    rw [dblock_eq]
    omega
  have onDisk : dblock image.freeblock layoutSb < fssize blockgroups := by
    rw [place, fssize_eq, blockgroups]
    omega
  obtain ⟨created, ip, allocated, file, ref, busy, valid, loaded, -⟩ := boot_new_file accepted
  obtain ⟨opened, locking, file⟩ := file.lock ref busy valid (by rw [loaded]; decide)
  rw [loaded] at file
  have held (d : Dinode) : locked { ip with busy := true, valid := true, din := d } = true := by
    simp [locked, ref]
  obtain ⟨linked, linking, file⟩ := file.set_fields (held _) 0 0 1
  obtain ⟨clean, mapped, mapping, file⟩ := file.fill_addr (held _) rfl lower upper
  have first (d : Dinode) : (d.setAddr 0 (image.freeblock + 36)).addr 0 = image.freeblock + 36 :=
    Dinode.addr_set_same d 0 _ (by decide) (by omega)
  obtain ⟨stored, storing, file⟩ :=
    file.store_bytes (held _) image.freeblock ((first _).trans place.symm) onDisk 0 [1]
  obtain ⟨grown, growing, file⟩ := file.grow_size (held _) 1
  obtain ⟨unlinked, unlinking, file⟩ := file.set_fields (held _) 0 0 0
  obtain ⟨final, unlocking, file⟩ := file.unlock (held _)
  refine ⟨final, _, ?_, ?_, file, ?_, rfl, ?_⟩
  · simp only [run, createWriteUnlink, next, allocated, locking, linking, mapping, storing,
      growing, unlinking, unlocking, Except.toOption, Option.bind_some]
  · apply clean_reach _ unlocking trivial
    apply clean_reach _ unlinking trivial
    apply clean_reach _ growing trivial
    apply clean_reach _ storing trivial
    apply clean_reach _ mapping clean
    apply clean_reach _ linking trivial
    apply clean_reach _ locking trivial
    exact clean_reach Reaches.start allocated trivial
  · simp [lastReference, ref]
  · exact first { Dinode.blank with type := tFile, major := 0, minor := 0, nlink := 1 }

/-- The theorem applies to a run that hands out a block. -/
theorem blocks_accounted_after_write :
    ∃ image fs, Mkfs.mkfs [] = some image ∧ Reaches next Clean (boot image.sector) fs ∧
      ((fs.icache 0).din.addr 0 ≠ 0) ∧ BlocksAccounted fs ∧
      ∀ slot, Clean fs (.iput slot) → step fs (.iput slot) ≠ .error .freeingFreeBlock := by
  obtain ⟨image, accepted, few⟩ := MkfsInodes.mkfs_accepts_empty_files [] (by decide) (by simp)
  rw [List.length_nil] at few
  obtain ⟨fs, ip, -, reached, file, -, -, first⟩ := create_write_unlink accepted (by omega)
  refine ⟨image, fs, accepted, reached, ?_, blocks_accounted_over_runs accepted reached⟩
  rw [file.entry, first]
  omega

/-- With no guard, `bfree` finds a clear bit on the first deletion of a file that was
written to. -/
theorem deleting_written_file_panics : ∃ image fs, Mkfs.mkfs [] = some image ∧
      run next (boot image.sector) createWriteUnlink = some fs ∧
      ¬ (BlocksAccounted fs ∧ ∀ slot, step fs (.iput slot) ≠ .error .freeingFreeBlock) := by
  obtain ⟨image, accepted, few⟩ := MkfsInodes.mkfs_accepts_empty_files [] (by decide) (by simp)
  rw [List.length_nil] at few
  obtain ⟨fs, ip, ran, -, file, last, free, first⟩ := create_write_unlink accepted (by omega)
  refine ⟨image, fs, accepted, ran, ?_⟩
  rintro ⟨-, never⟩
  exact never 0 (file.delete last free first (by omega))

end Xv6Hacks.FileSystemRuns
