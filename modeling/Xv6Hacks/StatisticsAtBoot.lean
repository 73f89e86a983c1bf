import Xv6Hacks.CrashRecovery
import Xv6Hacks.GroupStatistics

/-!
# Statistics after a reboot

The first process runs `iinit`, which counts the inodes of every group on the disk as
it is, and only then `initlog`, which installs a transaction that was committed but
not yet copied home. The counts are those of the disk before the installation, except
in the groups whose last inode block is itself in the log.
-/

namespace Xv6Hacks.StatisticsAtBoot

open BlockAccounting BlockGroupLayout ByteBuffers CrashRecovery DiskFormat FileSystemRuns Function
open GroupStatistics GuardedRuns RedoLog WriteSequences
open KernelFs

def forkret (disk : Store Buffer) : Store Buffer :=
  let fs := boot disk
  (recoverFromLog (reboot fs.sb fs.disk)).disk

section Replay
variable (sb : Superblock) (disk : Store Buffer)

def loggedBlocks : Nat := (headN (disk sb.logstart)).toNat

def inLog (blockno : Nat) : Bool :=
  (List.range (loggedBlocks sb disk)).any fun index =>
    headBlock (disk sb.logstart) index == blockno

def replayWrites : List (Nat × Buffer) :=
  loopWrites (headBlock (disk sb.logstart)) (fun index => disk (sb.logstart + index + 1))
    (loggedBlocks sb disk)

def replay : Store Buffer := applyWrites (replayWrites sb disk) disk

/-- The log area holds no more blocks than it has room for, and none of its own. -/
structure WellLogged : Prop where
  fits : loggedBlocks sb disk ≤ sb.nlog - 1
  outside : ∀ index, index < loggedBlocks sb disk →
    OutsideLog sb (headBlock (disk sb.logstart) index)

end Replay

variable {sb : Superblock} {disk : Store Buffer}

theorem in_log_iff (blockno : Nat) :
    inLog sb disk blockno = true ↔ ∃ write ∈ replayWrites sb disk, write.1 = blockno := by
  simp [inLog, replayWrites, loopWrites]

theorem crash_shape_well_logged {t : Transaction sb} {old new : Store Buffer}
    (shape : CrashShape t old new disk) : WellLogged sb disk := by
  have settled (clear : headN (disk sb.logstart) = 0) : WellLogged sb disk := by
    have none : loggedBlocks sb disk = 0 := by rw [loggedBlocks, clear]; rfl
    constructor
    · omega
    · intro index bound
      omega
  rcases shape with untouched | committed | installed
  · exact settled untouched.head
  · have count : loggedBlocks sb disk = t.home.length := by
      rw [loggedBlocks, committed.head]
      rfl
    constructor
    · rw [count]
      exact t.fits
    · intro index bound
      rw [count] at bound
      rw [committed.block index bound]
      exact t.outside _ (t.block_mem index bound)
  · exact settled installed.head

theorem recover_replays (logged : WellLogged sb disk) :
    ∃ head, (recoverFromLog (reboot sb disk)).disk = update (replay sb disk) sb.logstart head := by
  have count : (readHead (reboot sb disk)).lh.n.toNat = loggedBlocks sb disk := rfl
  have target : ∀ index, index < loggedBlocks sb disk →
      (readHead (reboot sb disk)).lh.block index = headBlock (disk sb.logstart) index := by
    intro index bound
    apply if_pos
    show (index : Int) < headN (disk sb.logstart)
    rw [loggedBlocks] at bound
    omega
  have fits := logged.fits
  rcases install_and_erase (readHead (reboot sb disk)) (by
    intro written read boundWritten boundRead
    rw [count] at boundWritten boundRead
    have outside := logged.outside written boundWritten
    rw [target written boundWritten]
    change _ ≠ sb.logstart + read + 1
    rw [OutsideLog] at outside
    omega) with ⟨head, -, -, final⟩
  have writes : loopWrites (readHead (reboot sb disk)).lh.block
      (fun index => bread (readHead (reboot sb disk))
        ((readHead (reboot sb disk)).start + index + 1)) (loggedBlocks sb disk) =
      replayWrites sb disk :=
    loop_writes_congr _ _ _ _ _ target fun _ _ => rfl
  rw [count, writes, apply_writes_append] at final
  exact ⟨head, final⟩

/-- A disk of the layout of `mkfs` that a crash may leave. -/
structure CrashImage (disk : Store Buffer) : Prop where
  layout : readsb disk = layoutSb
  logged : WellLogged layoutSb disk

theorem boot_log_block (layout : readsb disk = layoutSb) (blockno : Nat) (early : blockno < 36) :
    (boot disk).disk blockno = disk blockno := by
  apply (boot_disk layout).block
  intro group
  rw [statblock_eq]
  omega

theorem boot_replay_writes (image : CrashImage disk) :
    loggedBlocks layoutSb (boot disk).disk = loggedBlocks layoutSb disk ∧
    replayWrites layoutSb (boot disk).disk = replayWrites layoutSb disk := by
  have start : layoutSb.logstart = 2 := by decide
  have room : layoutSb.nlog = 30 := by decide
  have fits := image.logged.fits
  have header : (boot disk).disk layoutSb.logstart = disk layoutSb.logstart :=
    boot_log_block image.layout _ (by omega)
  have count : loggedBlocks layoutSb (boot disk).disk = loggedBlocks layoutSb disk := by
    rw [loggedBlocks, header, loggedBlocks]
  refine ⟨count, ?_⟩
  rw [replayWrites, replayWrites, count, header]
  apply loop_writes_congr
  · intro index _
    rfl
  · intro index bound
    exact boot_log_block image.layout _ (by omega)

/-- A block of the log ends as the replay leaves it, any other as `iinit` does. -/
theorem forkret_block (image : CrashImage disk) (blockno : Nat) (beyond : 32 ≤ blockno) :
    forkret disk blockno = if inLog layoutSb disk blockno then replay layoutSb disk blockno
      else (boot disk).disk blockno := by
  have start : layoutSb.logstart = 2 := by decide
  have booted : (boot disk).sb = layoutSb := image.layout
  obtain ⟨count, writes⟩ := boot_replay_writes image
  have logged : WellLogged layoutSb (boot disk).disk := by
    have header : (boot disk).disk layoutSb.logstart = disk layoutSb.logstart :=
      boot_log_block image.layout _ (by omega)
    constructor
    · rw [count]
      exact image.logged.fits
    · rw [count, header]
      exact image.logged.outside
  obtain ⟨head, final⟩ := recover_replays logged
  rw [forkret, booted, final, update_of_ne (by omega), replay, writes, replay]
  split
  · rename_i member
    exact apply_writes_covered _ _ _ _ (.inr ((in_log_iff blockno).mp member))
  · rename_i absent
    apply apply_writes_untouched
    intro write member same
    exact absent ((in_log_iff blockno).mpr ⟨write, member, same⟩)

theorem replay_unlogged (blockno : Nat) (absent : inLog sb disk blockno = false) :
    replay sb disk blockno = disk blockno := by
  apply apply_writes_untouched
  intro write member same
  rw [(in_log_iff blockno).mpr ⟨write, member, same⟩] at absent
  contradiction

theorem forkret_load (image : CrashImage disk) (inum : Nat) :
    loadDinode (forkret disk) layoutSb inum = loadDinode (replay layoutSb disk) layoutSb inum := by
  have beyond : 32 ≤ iblock inum layoutSb := by
    rw [iblock_eq]
    omega
  rw [loadDinode, loadDinode, forkret_block image _ beyond]
  split
  · rfl
  · rename_i absent
    rw [replay_unlogged _ (by simpa using absent)]
    exact (boot_disk image.layout).load inum

theorem forkret_typed (image : CrashImage disk) (group : Nat) :
    typedInodes layoutSb (forkret disk) group = typedInodes layoutSb (replay layoutSb disk) group :=
  typed_inodes_congr _ group fun inum => congrArg Dinode.type (forkret_load image inum)

/-- The count of a group once `forkret` is done: the logged one if its record is in the
log, else the count of the inodes in use before the replay. -/
def recordedUse (disk : Store Buffer) (group : Nat) : Nat :=
  if inLog layoutSb disk (statblock group layoutSb) then
    usedBlocks (replay layoutSb disk (statblock group layoutSb))
  else inodesInUse layoutSb disk group

theorem forkret_used (image : CrashImage disk) {group : Nat}
    (inside : group < layoutSb.nblockgroups) :
    usedBlocks (forkret disk (statblock group layoutSb)) = recordedUse disk group := by
  have beyond : 32 ≤ statblock group layoutSb := by
    rw [statblock_eq]
    omega
  rw [forkret_block image _ beyond, recordedUse]
  split
  · rfl
  · exact (boot_stats image.layout inside).1

/-- The records are right after a boot exactly if replaying the log does not change
what `iinit` counted, or brings the right record along. -/
theorem statistics_right_after_boot_iff (image : CrashImage disk) :
    (∀ group, group < layoutSb.nblockgroups → usedBlocks (forkret disk (statblock group layoutSb)) =
        typedInodes layoutSb (forkret disk) group) ↔ ∀ group, group < layoutSb.nblockgroups →
      recordedUse disk group = typedInodes layoutSb (replay layoutSb disk) group := by
  constructor
  · intro right group inside
    rw [← forkret_used image inside, ← forkret_typed image group]
    exact right group inside
  · intro right group inside
    rw [forkret_used image inside, forkret_typed image group]
    exact right group inside

def singleBlock (blockno : Nat) (lower : 32 ≤ blockno) (upper : blockno < 2 ^ 32) :
    Transaction layoutSb where
  home := [blockno]
  distinct := List.nodup_singleton blockno
  outside := by
    intro other member
    rw [List.mem_singleton] at member
    right
    rw [show layoutSb.logstart + layoutSb.nlog = 32 by decide]
    omega
  uint := by
    intro other member
    rw [List.mem_singleton] at member
    omega
  fits := by
    rw [List.length_singleton]
    decide
  int := by simp

/-- The image a crash leaves when a transaction of one block is committed and not yet
installed. -/
def crashed (old new : Store Buffer) (blockno : Nat) (lower : 32 ≤ blockno)
    (upper : blockno < 2 ^ 32) : Store Buffer :=
  crashCommit ((singleBlock blockno lower upper).ready old fun block => some (new block)) 2

section Crashed
variable (old new : Store Buffer) (blockno : Nat) (lower : 32 ≤ blockno) (upper : blockno < 2 ^ 32)

theorem crashed_committed :
    Committed (singleBlock blockno lower upper) old new (crashed old new blockno lower upper) ∧
    ∀ other, OutsideLog layoutSb other → crashed old new blockno lower upper other = old other :=
  crash_after_header (singleBlock blockno lower upper) old (fun block => some (new block))
    (by decide) Nat.one_pos

theorem crashed_image (layout : readsb old = layoutSb) :
    CrashImage (crashed old new blockno lower upper) := by
  obtain ⟨committed, kept⟩ := crashed_committed old new blockno lower upper
  constructor
  · rw [readsb, kept 1 (.inl (by decide))]
    exact layout
  · exact crash_shape_well_logged (.inr (.inl committed))

theorem crashed_writes :
    replayWrites layoutSb (crashed old new blockno lower upper) = [(blockno, new blockno)] := by
  obtain ⟨committed, -⟩ := crashed_committed old new blockno lower upper
  have count : loggedBlocks layoutSb (crashed old new blockno lower upper) = 1 := by
    rw [loggedBlocks, committed.head]
    rfl
  have first := committed.block 0 Nat.one_pos
  have content := committed.logged 0 Nat.one_pos
  rw [replayWrites, count, loopWrites, List.range_one, List.map_singleton, first, content]
  rfl

theorem crashed_in_log (other : Nat) (different : blockno ≠ other) :
    inLog layoutSb (crashed old new blockno lower upper) other = false := by
  rw [← Bool.not_eq_true, in_log_iff, crashed_writes]
  simpa using different

theorem crashed_replay (same : ∀ other, other ≠ blockno → new other = old other) (other : Nat)
    (beyond : 32 ≤ other) :
    replay layoutSb (crashed old new blockno lower upper) other = new other := by
  have outside : OutsideLog layoutSb other := by
    right
    rw [show layoutSb.logstart + layoutSb.nlog = 32 by decide]
    exact beyond
  rw [replay, crashed_writes]
  simp only [applyWrites]
  by_cases here : other = blockno
  · rw [here, update_self]
  · rw [update_of_ne here, (crashed_committed old new blockno lower upper).2 other outside,
      same other here]

theorem crashed_recorded (group : Nat) (different : blockno ≠ statblock group layoutSb) :
    recordedUse (crashed old new blockno lower upper) group = inodesInUse layoutSb old group := by
  rw [recordedUse, crashed_in_log old new blockno lower upper _ different]
  apply inodes_in_use_congr
  intro inum
  rw [loadDinode, loadDinode, (crashed_committed old new blockno lower upper).2]
  right
  rw [show layoutSb.logstart + layoutSb.nlog = 32 by decide, iblock_eq]
  omega

theorem crashed_typed (same : ∀ other, other ≠ blockno → new other = old other) (group : Nat) :
    typedInodes layoutSb (replay layoutSb (crashed old new blockno lower upper)) group =
    typedInodes layoutSb new group := by
  apply typed_inodes_congr
  intro inum
  rw [loadDinode, loadDinode, crashed_replay old new blockno lower upper same]
  rw [iblock_eq]
  omega

end Crashed

def emptyLog (disk : Store Buffer) : Store Buffer :=
  update disk layoutSb.logstart blankBlock

theorem empty_log_load (disk : Store Buffer) (inum : Nat) :
    loadDinode (emptyLog disk) layoutSb inum = loadDinode disk layoutSb inum := by
  apply load_update_other
  rw [iblock_eq, show layoutSb.logstart = 2 by decide]
  omega

theorem empty_log_super (layout : readsb disk = layoutSb) : readsb (emptyLog disk) = layoutSb := by
  rw [readsb, emptyLog, update_of_ne (by decide)]
  exact layout

/-- A crash in a transaction that changes one data block of a fresh image does no
harm. -/
theorem statistics_right_after_data_replay : ∃ image disk, Mkfs.mkfs [] = some image ∧
      disk = crashed (emptyLog image.sector) (emptyLog image.sector) 40 (by omega) (by omega) ∧
      CrashImage disk ∧ ∀ group, group < layoutSb.nblockgroups →
        usedBlocks (forkret disk (statblock group layoutSb)) =
          typedInodes layoutSb (forkret disk) group := by
  obtain ⟨image, accepted, -⟩ := MkfsInodes.mkfs_accepts_empty_files [] (by decide) (by simp)
  have plain := mkfs_plain accepted
  have crash := crashed_image (emptyLog image.sector) (emptyLog image.sector) 40 (by omega)
    (by omega) (empty_log_super plain.layout)
  refine ⟨image, _, accepted, rfl, crash, (statistics_right_after_boot_iff crash).mpr ?_⟩
  intro group inside
  rw [crashed_recorded _ _ _ _ _ group (by rw [statblock_eq]; omega),
    crashed_typed _ _ _ _ _ (fun _ _ => rfl),
    inodes_in_use_congr group (empty_log_load image.sector), plain.counted inside]
  exact (typed_inodes_congr _ group fun inum =>
    congrArg Dinode.type (empty_log_load image.sector inum)).symm

/-- A file is created and dropped before it has a name; the crash comes after the
transaction that frees its inode was committed and before it is installed. `iinit`
counts the inode, and the replay frees it. -/
theorem replayed_free_still_counted :
    ∃ image before after inum lower upper disk, Mkfs.mkfs [] = some image ∧
      run next (boot image.sector) createAndDrop = some before ∧
      step before (.iput 0) = .ok after ∧ inum = (before.icache 0).inum ∧
      (∀ blockno, blockno ≠ iblock inum layoutSb → after.disk blockno = before.disk blockno) ∧
      disk = crashed (emptyLog before.disk) (emptyLog after.disk) (iblock inum layoutSb)
        lower upper ∧ CrashImage disk ∧ ¬ ∀ group, group < layoutSb.nblockgroups →
        usedBlocks (forkret disk (statblock group layoutSb)) =
          typedInodes layoutSb (forkret disk) group := by
  obtain ⟨image, accepted, -⟩ := MkfsInodes.mkfs_accepts_empty_files [] (by decide) (by simp)
  obtain ⟨before, ip, ran, reached, file, last, free, empty, early, plain⟩ :=
    create_and_drop accepted
  obtain ⟨after, put⟩ := release_new_file file last free empty
  have dropped : KernelFs.iput before 0 = .ok after := by
    simp only [step] at put
    split at put
    · exact put
    · contradiction
  have lastEntry : lastReference (before.icache 0) = true := by rw [file.entry]; exact last
  have emptyEntry : HoldsNoBlock (before.icache 0).din := by rw [file.entry]; exact empty
  have small : (before.icache 0).inum < 3 := by rw [file.entry]; exact early
  obtain ⟨-, freed⟩ := iput_retyped file.layout lastEntry emptyEntry dropped
  have typed := (reached_counted (mkfs_plain accepted) reached).typed 0 _
    (last_reference_live lastEntry)
  have lower : 32 ≤ iblock (before.icache 0).inum layoutSb := by
    rw [iblock_eq]
    omega
  have upper : iblock (before.icache 0).inum layoutSb < 2 ^ 32 := by
    rw [iblock_eq]
    omega
  have crash := crashed_image (emptyLog before.disk) (emptyLog after.disk)
    (iblock (before.icache 0).inum layoutSb) lower upper (empty_log_super plain.layout)
  have same (blockno : Nat) (different : blockno ≠ iblock (before.icache 0).inum layoutSb) :
      emptyLog after.disk blockno = emptyLog before.disk blockno := by
    rw [emptyLog, emptyLog]
    by_cases header : blockno = layoutSb.logstart
    · rw [header, update_self, update_self]
    · rw [update_of_ne header, update_of_ne header, freed.block _ different]
  refine ⟨image, before, after, _, lower, upper, _, accepted, ran, put, rfl, freed.block, rfl,
    crash, ?_⟩
  intro right
  have first := right 0 (by decide)
  rw [forkret_used crash (by decide), forkret_typed crash,
    crashed_recorded _ _ _ _ _ 0 (by rw [iblock_eq, statblock_eq]; omega),
    crashed_typed _ _ _ _ _ same, inodes_in_use_congr 0 (empty_log_load before.disk),
    plain.counted (by decide)] at first
  -- The replayed image has one inode less.
  have freedTypes : typedInodes layoutSb (emptyLog after.disk) 0 =
      typedInodes layoutSb after.disk 0 :=
    typed_inodes_congr _ 0 fun inum => congrArg Dinode.type (empty_log_load after.disk inum)
  have grown := typed_inodes_claim after.disk freed.own (typed.1 ▸ typed.2)
    (fun other different => (freed.others other different).symm) 0
  rw [if_pos (by omega)] at grown
  omega

end Xv6Hacks.StatisticsAtBoot
