import Xv6Hacks.BlockGroupLayout
import Xv6Hacks.ByteBuffers
import Xv6Hacks.WriteSequences

/-!
# The redo log

The commit and recovery paths of `log.c`. A `Log` is the in-memory `struct log`
together with the disk it works on, the buffer cache seen as an overlay of block
contents, and the list of single-block writes issued so far. Reading a block into
the cache changes what no later read returns, so `bread` leaves no trace here.
-/

namespace Xv6Hacks.RedoLog

open BlockGroupLayout ByteBuffers Function WriteSequences

structure Logheader where
  n : Int
  block : Nat → Nat

structure Log where
  start : Nat
  size : Nat
  lh : Logheader
  disk : Store Buffer
  cache : Nat → Option Buffer
  writes : List (Nat × Buffer)

def bread (log : Log) (blockno : Nat) : Buffer :=
  (log.cache blockno).getD (log.disk blockno)

def bwrite (log : Log) (blockno : Nat) (data : Buffer) : Log :=
  { log with
    disk := update log.disk blockno data
    cache := update log.cache blockno (some data)
    writes := log.writes ++ [(blockno, data)] }

/-- The loop shared by `install_trans` and `write_log`: for every `tail` below the
count, in order, read one block and write its content to another. -/
def copyBlocks (target source : Nat → Nat) : Nat → Log → Log
  | 0, log => log
  | count + 1, log =>
    let before := copyBlocks target source count log
    bwrite before (target count) (bread before (source count))

def installTrans (log : Log) : Log :=
  copyBlocks log.lh.block (fun tail => log.start + tail + 1) log.lh.n.toNat log

def writeLog (log : Log) : Log :=
  copyBlocks (fun tail => log.start + tail + 1) log.lh.block log.lh.n.toNat log

/-- The value of an `int` stored as a `uint`. -/
def toInt (value : Nat) : Int :=
  if value < 2 ^ 31 then value else (value : Int) - 2 ^ 32

def headN (head : Buffer) : Int := toInt (readLE head 0 4)

def headBlock (head : Buffer) (index : Nat) : Nat := readLE head (4 + 4 * index) 4

def storeHead (lh : Logheader) (head : Buffer) : Buffer :=
  writeArray (writeLE head 0 4 (lh.n % 2 ^ 32).toNat) 4 4 lh.block lh.n.toNat

def writeHead (log : Log) : Log :=
  bwrite log log.start (storeHead log.lh (bread log log.start))

/-- Entries of the in-memory header beyond the count on disk keep their values. -/
def readHead (log : Log) : Log :=
  let head := bread log log.start
  { log with lh :=
    { n := headN head
      block := fun index =>
        if (index : Int) < headN head then headBlock head index else log.lh.block index } }

def eraseHead (log : Log) : Log := { log with lh := { log.lh with n := 0 } }

def recoverFromLog (log : Log) : Log :=
  writeHead (eraseHead (installTrans (readHead log)))

def commit (log : Log) : Log :=
  if log.lh.n > 0 then
    writeHead (eraseHead (installTrans (writeHead (writeLog log))))
  else log

/-- The log of a machine that comes up with this disk: an empty cache, a zeroed
header in memory, and the geometry `initlog` reads from the superblock. -/
def reboot (sb : Superblock) (disk : Store Buffer) : Log where
  start := sb.logstart
  size := sb.nlog
  lh := { n := 0, block := fun _ => 0 }
  disk := disk
  cache := fun _ => none
  writes := []

theorem to_int_small (value : Nat) (small : value < 2 ^ 31) : toInt value = value := by
  rw [toInt, if_pos small]

theorem head_n_store (lh : Logheader) (head : Buffer) (lower : 0 ≤ lh.n)
    (upper : lh.n < 2 ^ 31) : headN (storeHead lh head) = lh.n := by
  rw [headN, storeHead, read_le_write_array_apart _ _ _ _ _ _ _ (.inl (Nat.le_refl 4)),
    read_le_write_same]
  have word : (lh.n % 2 ^ 32).toNat % 256 ^ 4 = lh.n.toNat := by
    rw [Int.emod_eq_of_lt lower (by omega), Nat.mod_eq_of_lt (by omega)]
  rw [word, to_int_small _ (by omega)]
  omega

theorem head_block_store (lh : Logheader) (head : Buffer) (index : Nat)
    (bound : (index : Int) < lh.n) (small : lh.block index < 2 ^ 32) :
    headBlock (storeHead lh head) index = lh.block index := by
  rw [headBlock, storeHead, read_le_write_array_at _ _ _ _ _ _ (by omega)]
  exact Nat.mod_eq_of_lt (by simpa using small)

/-- What a copy loop does when no block it reads is one it writes: it issues the
writes of the loop in order, all with contents read before the first of them. -/
structure Copied (target source : Nat → Nat) (count : Nat) (log after : Log) : Prop where
  start : after.start = log.start
  lh : after.lh = log.lh
  writes : after.writes =
    log.writes ++ loopWrites target (fun index => bread log (source index)) count
  disk : after.disk =
    applyWrites (loopWrites target (fun index => bread log (source index)) count) log.disk
  bread : ∀ blockno, (∀ index, index < count → target index ≠ blockno) →
    bread after blockno = bread log blockno

theorem bread_bwrite_other (log : Log) (blockno other : Nat) (data : Buffer)
    (different : other ≠ blockno) : bread (bwrite log blockno data) other = bread log other := by
  simp [bread, bwrite, different]

theorem bread_bwrite_same (log : Log) (blockno : Nat) (data : Buffer) :
    bread (bwrite log blockno data) blockno = data := by
  simp [bread, bwrite]

theorem copy_blocks_copied (target source : Nat → Nat) (count : Nat) (log : Log)
    (apart : ∀ written read, written < count → read < count → target written ≠ source read) :
    Copied target source count log (copyBlocks target source count log) := by
  induction count with
  | zero => exact ⟨rfl, rfl, by simp [copyBlocks, loopWrites], rfl, fun _ _ => rfl⟩
  | succ count ih =>
    have copied := ih fun written read boundWritten boundRead =>
      apart written read (by omega) (by omega)
    have unread : bread (copyBlocks target source count log) (source count) =
        bread log (source count) :=
      copied.bread _ fun index bound => apart index count (by omega) (by omega)
    refine ⟨copied.start, copied.lh, ?_, ?_, ?_⟩
    · simp only [copyBlocks, bwrite, unread, copied.writes, loop_writes_succ, List.append_assoc]
    · simp only [copyBlocks, bwrite, unread, copied.disk, loop_writes_succ,
        apply_writes_append, applyWrites]
    · intro blockno untouched
      simp only [copyBlocks]
      rw [bread_bwrite_other _ _ _ _ (untouched count (by omega)).symm]
      exact copied.bread blockno fun index bound => untouched index (by omega)

theorem copy_blocks_read (target source : Nat → Nat) (count : Nat) (log : Log)
    (apart : ∀ written read, written < count → read < count → target written ≠ source read)
    (distinct : ∀ left right, left < count → right < count →
    target left = target right → left = right) (index : Nat) (bound : index < count) :
    bread (copyBlocks target source count log) (target index) = bread log (source index) := by
  induction count with
  | zero => omega
  | succ count ih =>
    have copied := copy_blocks_copied target source count log
      fun written read boundWritten boundRead =>
        apart written read (by omega) (by omega)
    rw [copyBlocks]
    by_cases last : index = count
    · subst last
      rw [bread_bwrite_same]
      exact copied.bread _ fun written small => apart written index (by omega) bound
    · rw [bread_bwrite_other _ _ _ _ fun same =>
        last (distinct index count bound (by omega) same)]
      apply ih
      · intro written read boundWritten boundRead
        exact apart written read (by omega) (by omega)
      · intro left right boundLeft boundRight
        exact distinct left right (by omega) (by omega)
      · omega

/-- The end of `commit` and of `recover_from_log`: the logged contents go to their
home blocks in order, then the header is written with a count of zero. -/
theorem install_and_erase (log : Log)
    (apart : ∀ written read, written < log.lh.n.toNat → read < log.lh.n.toNat →
    log.lh.block written ≠ log.start + read + 1) : ∃ head, headN head = 0 ∧
    (writeHead (eraseHead (installTrans log))).writes = log.writes ++
    (loopWrites log.lh.block (fun index => bread log (log.start + index + 1))
    log.lh.n.toNat ++ [(log.start, head)]) ∧ (writeHead (eraseHead (installTrans log))).disk =
    applyWrites (loopWrites log.lh.block
    (fun index => bread log (log.start + index + 1)) log.lh.n.toNat ++
    [(log.start, head)]) log.disk := by
  have copied := copy_blocks_copied log.lh.block (fun tail => log.start + tail + 1)
    log.lh.n.toNat log apart
  rw [← installTrans] at copied
  have begins : (eraseHead (installTrans log)).start = log.start := copied.start
  have writes : (eraseHead (installTrans log)).writes = _ := copied.writes
  have disk : (eraseHead (installTrans log)).disk = _ := copied.disk
  generalize erased : eraseHead (installTrans log) = after at begins writes disk
  have count : after.lh.n = 0 := by rw [← erased]; rfl
  exists storeHead after.lh (bread after log.start)
  refine ⟨?_, ?_, ?_⟩
  · rw [head_n_store _ _ (by omega) (by omega), count]
  · rw [writeHead, bwrite, begins, writes, List.append_assoc]
  · rw [writeHead, bwrite, begins, disk, apply_writes_append]
    rfl

end Xv6Hacks.RedoLog
