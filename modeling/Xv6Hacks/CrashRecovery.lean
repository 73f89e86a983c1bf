import Mathlib.Data.List.GetD
import Xv6Hacks.RedoLog

/-!
# Crash atomicity of the redo log

A crash may come after any single-block write of `commit`, and after any write of
any number of recoveries. Three shapes of the disk cover every such moment: the
transaction has not happened, it is committed in the log and home blocks are being
installed, or it is installed and erased. A recovery keeps each shape, and a
complete one leaves the first or the third.
-/

namespace Xv6Hacks.CrashRecovery

open BlockGroupLayout ByteBuffers Function RedoLog WriteSequences

def OutsideLog (sb : Superblock) (blockno : Nat) : Prop :=
  blockno < sb.logstart ∨ sb.logstart + sb.nlog ≤ blockno

/-- The blocks of one transaction, as `log_write` lets them into the header. -/
structure Transaction (sb : Superblock) where
  home : List Nat
  distinct : home.Nodup
  outside : ∀ blockno ∈ home, OutsideLog sb blockno
  uint : ∀ blockno ∈ home, blockno < 2 ^ 32
  fits : home.length ≤ sb.nlog - 1
  int : home.length < 2 ^ 31

variable {sb : Superblock}

def Transaction.block (t : Transaction sb) (index : Nat) : Nat := t.home.getD index 0

/-- The log at the moment `end_op` calls `commit`, for any cache. -/
def Transaction.ready (t : Transaction sb) (disk : Store Buffer)
    (cache : Nat → Option Buffer) : Log where
  start := sb.logstart
  size := sb.nlog
  lh := { n := t.home.length, block := t.block }
  disk := disk
  cache := cache
  writes := []

/-- The disk after a crash that lets the first `kept` writes of `commit` through. -/
def crashCommit (log : Log) (kept : Nat) : Store Buffer :=
  applyWrites ((commit log).writes.take kept) log.disk

def crashRecoveries (sb : Superblock) : List Nat → Store Buffer → Store Buffer
  | [], disk => disk
  | kept :: rest, disk =>
    crashRecoveries sb rest
      (applyWrites ((recoverFromLog (reboot sb disk)).writes.take kept) disk)

/-- The disk after a crash in `commit`, any number of crashed recoveries and one
complete recovery. `initlog` has read the same geometry each time. -/
def recoveredDisk (t : Transaction sb) (disk : Store Buffer) (cache : Nat → Option Buffer)
    (kept : Nat) (crashes : List Nat) : Store Buffer :=
  (recoverFromLog (reboot sb
    (crashRecoveries sb crashes (crashCommit (t.ready disk cache) kept)))).disk

structure Atomic (t : Transaction sb) (old new disk : Store Buffer) : Prop where
  home : (∀ blockno ∈ t.home, disk blockno = old blockno) ∨
    (∀ blockno ∈ t.home, disk blockno = new blockno)
  rest : ∀ blockno, OutsideLog sb blockno → blockno ∉ t.home → disk blockno = old blockno
  head : headN (disk sb.logstart) = 0

theorem Transaction.block_mem (t : Transaction sb) (index : Nat)
    (bound : index < t.home.length) : t.block index ∈ t.home := by
  rw [Transaction.block, List.getD_eq_getElem _ _ bound]
  exact List.getElem_mem bound

theorem Transaction.exists_block (t : Transaction sb) (blockno : Nat) (member : blockno ∈ t.home) :
    ∃ index, index < t.home.length ∧ t.block index = blockno := by
  obtain ⟨index, bound, same⟩ := List.getElem_of_mem member
  exact ⟨index, bound, by rw [Transaction.block, List.getD_eq_getElem _ _ bound, same]⟩

theorem Transaction.block_injective (t : Transaction sb) (left right : Nat)
    (boundLeft : left < t.home.length) (boundRight : right < t.home.length)
    (same : t.block left = t.block right) : left = right := by
  rw [Transaction.block, Transaction.block, List.getD_eq_getElem _ _ boundLeft,
    List.getD_eq_getElem _ _ boundRight] at same
  exact (List.Nodup.getElem_inj_iff t.distinct).mp same

theorem Transaction.block_off_log (t : Transaction sb) (index tail : Nat)
    (bound : index < t.home.length) (inside : tail ≤ t.home.length) :
    t.block index ≠ sb.logstart + tail := by
  have outside := t.outside _ (t.block_mem index bound)
  have fits := t.fits
  unfold OutsideLog at outside
  omega

section Shapes
variable (t : Transaction sb) (old new disk : Store Buffer)

/-- The header is clear, the home blocks are those of `kept` and no other block
has changed. With `kept` the old disk the transaction has not happened, with the
new one it is complete. -/
structure Settled (kept : Store Buffer) : Prop where
  head : headN (disk sb.logstart) = 0
  home : ∀ blockno ∈ t.home, disk blockno = kept blockno
  rest : ∀ blockno, OutsideLog sb blockno → blockno ∉ t.home → disk blockno = old blockno

/-- The header names the transaction and the log holds its contents. Nothing is
said of the home blocks, which may be half installed. -/
structure Committed : Prop where
  head : headN (disk sb.logstart) = t.home.length
  block : ∀ index, index < t.home.length →
    headBlock (disk sb.logstart) index = t.block index
  logged : ∀ index, index < t.home.length →
    disk (sb.logstart + index + 1) = new (t.block index)
  rest : ∀ blockno, OutsideLog sb blockno → blockno ∉ t.home → disk blockno = old blockno

def CrashShape : Prop :=
  Settled t old disk old ∨ Committed t old new disk ∨ Settled t old disk new

end Shapes

variable {t : Transaction sb} {old new kept disk : Store Buffer}

theorem logging_outside (content : Nat → Buffer) (count : Nat) (room : count ≤ sb.nlog - 1)
    (blockno : Nat) (outside : OutsideLog sb blockno) :
    applyWrites (loopWrites (fun tail => sb.logstart + tail + 1) content count) disk blockno =
    disk blockno := by
  apply loop_writes_untouched
  intro index bound
  unfold OutsideLog at outside
  omega

theorem header_outside (head : Buffer) (room : 0 < sb.nlog) (blockno : Nat)
    (outside : OutsideLog sb blockno) : update disk sb.logstart head blockno = disk blockno := by
  apply update_of_ne
  unfold OutsideLog at outside
  omega

theorem settled_logging (settled : Settled t old disk kept) (content : Nat → Buffer) (count : Nat)
    (bound : count ≤ t.home.length) : Settled t old
    (applyWrites (loopWrites (fun tail => sb.logstart + tail + 1) content count) disk) kept := by
  have room := bound.trans t.fits
  constructor
  · rw [loop_writes_untouched _ _ _ _ _ fun index _ => by omega]
    exact settled.head
  · intro blockno member
    rw [logging_outside content count room blockno (t.outside blockno member)]
    exact settled.home blockno member
  · intro blockno outside fresh
    rw [logging_outside content count room blockno outside]
    exact settled.rest blockno outside fresh

theorem committed_installing (committed : Committed t old new disk) (count : Nat)
    (bound : count ≤ t.home.length) : Committed t old new
    (applyWrites (loopWrites t.block (fun index => new (t.block index)) count) disk) := by
  have unread (tail : Nat) (inside : tail ≤ t.home.length) :
      applyWrites (loopWrites t.block (fun index => new (t.block index)) count) disk
        (sb.logstart + tail) = disk (sb.logstart + tail) := by
    apply loop_writes_untouched
    intro index small
    exact t.block_off_log index tail (by omega) inside
  have header := unread 0 (Nat.zero_le _)
  rw [Nat.add_zero] at header
  constructor
  · rw [header]
    exact committed.head
  · rw [header]
    exact committed.block
  · intro index small
    rw [Nat.add_assoc, unread (index + 1) small]
    exact committed.logged index small
  · intro blockno outside fresh
    rw [loop_writes_untouched]
    · exact committed.rest blockno outside fresh
    · intro index small same
      exact fresh (same ▸ t.block_mem index (by omega))

theorem committed_erased (committed : Committed t old new disk) (room : 0 < sb.nlog) (head : Buffer)
    (clear : headN head = 0) : Settled t old
    (applyWrites (loopWrites t.block (fun index => new (t.block index)) t.home.length ++
    [(sb.logstart, head)]) disk) new := by
  have installed := committed_installing committed t.home.length le_rfl
  rw [apply_writes_append]
  simp only [applyWrites]
  constructor
  · rw [update_self]
    exact clear
  · intro blockno member
    obtain ⟨index, bound, rfl⟩ := t.exists_block blockno member
    rw [header_outside head room _ (t.outside _ member)]
    exact loop_writes_at t.block (fun index => new (t.block index)) t.home.length disk
      t.block_injective index bound
  · intro blockno outside fresh
    rw [header_outside head room blockno outside]
    exact installed.rest blockno outside fresh

theorem committed_prefix (committed : Committed t old new disk) (room : 0 < sb.nlog) (head : Buffer)
    (clear : headN head = 0) (kept : Nat) : CrashShape t old new
    (applyWrites ((loopWrites t.block (fun index => new (t.block index)) t.home.length ++
    [(sb.logstart, head)]).take kept) disk) := by
  right
  by_cases partway : kept ≤ t.home.length
  · left
    rw [List.take_append_of_le_length (by rw [loop_writes_length]; exact partway),
      loop_writes_take, Nat.min_eq_left partway]
    exact committed_installing committed kept partway
  · right
    rw [List.take_of_length_le (by simp [loop_writes_length]; omega)]
    exact committed_erased committed room head clear

theorem settled_rewritten (settled : Settled t old disk kept) (room : 0 < sb.nlog) (head : Buffer)
    (clear : headN head = 0) : Settled t old (update disk sb.logstart head) kept := by
  constructor
  · rw [update_self]
    exact clear
  · intro blockno member
    rw [header_outside head room blockno (t.outside blockno member)]
    exact settled.home blockno member
  · intro blockno outside fresh
    rw [header_outside head room blockno outside]
    exact settled.rest blockno outside fresh

theorem settled_prefix (settled : Settled t old disk kept) (room : 0 < sb.nlog) (head : Buffer)
    (clear : headN head = 0) (count : Nat) :
    Settled t old (applyWrites ([(sb.logstart, head)].take count) disk) kept := by
  cases count with
  | zero => exact settled
  | succ count =>
    rw [List.take_succ_cons, List.take_nil]
    exact settled_rewritten settled room head clear

theorem recover_settled (clear : headN (disk sb.logstart) = 0) : ∃ head, headN head = 0 ∧
    (recoverFromLog (reboot sb disk)).writes = [(sb.logstart, head)] ∧
    (recoverFromLog (reboot sb disk)).disk = update disk sb.logstart head := by
  have idle : (readHead (reboot sb disk)).lh.n.toNat = 0 := by
    simp [readHead, reboot, bread, clear]
  have finish := install_and_erase (readHead (reboot sb disk)) (by
    intro written read bound
    omega)
  rw [idle] at finish
  exact finish

theorem recover_committed (committed : Committed t old new disk) : ∃ head, headN head = 0 ∧
    (recoverFromLog (reboot sb disk)).writes =
    loopWrites t.block (fun index => new (t.block index)) t.home.length ++
    [(sb.logstart, head)] ∧ (recoverFromLog (reboot sb disk)).disk =
    applyWrites (loopWrites t.block (fun index => new (t.block index)) t.home.length ++
    [(sb.logstart, head)]) disk := by
  have count : (readHead (reboot sb disk)).lh.n.toNat = t.home.length := by
    simp [readHead, reboot, bread, committed.head]
  have target : ∀ index, index < t.home.length →
      (readHead (reboot sb disk)).lh.block index = t.block index := by
    intro index bound
    simp only [readHead, reboot, bread, Option.getD_none, committed.head]
    rw [if_pos (by omega)]
    exact committed.block index bound
  have finish := install_and_erase (readHead (reboot sb disk)) (by
    intro written read boundWritten boundRead
    rw [count] at boundWritten boundRead
    rw [target written boundWritten]
    exact t.block_off_log written (read + 1) boundWritten boundRead)
  have logged : loopWrites (readHead (reboot sb disk)).lh.block
      (fun index => bread (readHead (reboot sb disk))
        ((readHead (reboot sb disk)).start + index + 1)) t.home.length =
      loopWrites t.block (fun index => new (t.block index)) t.home.length :=
    loop_writes_congr _ _ _ _ _ target committed.logged
  rw [count, logged] at finish
  exact finish

theorem recovery_keeps_shape (room : 0 < sb.nlog) (shape : CrashShape t old new disk) (kept : Nat) :
    CrashShape t old new
    (applyWrites ((recoverFromLog (reboot sb disk)).writes.take kept) disk) := by
  rcases shape with untouched | committed | installed
  · left
    obtain ⟨head, clear, writes, -⟩ := recover_settled untouched.head
    rw [writes]
    exact settled_prefix untouched room head clear kept
  · obtain ⟨head, clear, writes, -⟩ := recover_committed committed
    rw [writes]
    exact committed_prefix committed room head clear kept
  · right
    right
    obtain ⟨head, clear, writes, -⟩ := recover_settled installed.head
    rw [writes]
    exact settled_prefix installed room head clear kept

theorem recoveries_keep_shape (room : 0 < sb.nlog) (crashes : List Nat)
    (shape : CrashShape t old new disk) :
    CrashShape t old new (crashRecoveries sb crashes disk) := by
  induction crashes generalizing disk with
  | nil => exact shape
  | cons kept rest ih => exact ih (recovery_keeps_shape room shape kept)

theorem recovery_settles (room : 0 < sb.nlog) (shape : CrashShape t old new disk) :
    Settled t old (recoverFromLog (reboot sb disk)).disk old ∨
    Settled t old (recoverFromLog (reboot sb disk)).disk new := by
  rcases shape with untouched | committed | installed
  · left
    obtain ⟨head, clear, -, final⟩ := recover_settled untouched.head
    rw [final]
    exact settled_rewritten untouched room head clear
  · right
    obtain ⟨head, clear, -, final⟩ := recover_committed committed
    rw [final]
    exact committed_erased committed room head clear
  · right
    obtain ⟨head, clear, -, final⟩ := recover_settled installed.head
    rw [final]
    exact settled_rewritten installed room head clear

/-- The log right after the first `write_head` of a commit, the point at which the
transaction is on disk. -/
structure Named (t : Transaction sb) (ready named : Log) (head : Buffer) : Prop where
  start : named.start = sb.logstart
  lh : named.lh = { n := t.home.length, block := t.block }
  writes : named.writes =
    loopWrites (fun tail => sb.logstart + tail + 1)
      (fun index => bread ready (t.block index)) t.home.length ++ [(sb.logstart, head)]
  logged : ∀ index, index < t.home.length →
    bread named (sb.logstart + index + 1) = bread ready (t.block index)
  headN : headN head = t.home.length
  headBlock : ∀ index, index < t.home.length → headBlock head index = t.block index

theorem write_head_named (t : Transaction sb) (disk : Store Buffer) (cache : Nat → Option Buffer) :
    ∃ head, Named t (t.ready disk cache) (writeHead (writeLog (t.ready disk cache))) head := by
  have apart : ∀ written read, written < t.home.length → read < t.home.length →
      sb.logstart + written + 1 ≠ t.block read := by
    intro written read boundWritten boundRead
    exact (t.block_off_log read (written + 1) boundRead boundWritten).symm
  have logging : writeLog (t.ready disk cache) =
      copyBlocks (fun tail => sb.logstart + tail + 1) t.block t.home.length
        (t.ready disk cache) := rfl
  have copied := copy_blocks_copied (fun tail => sb.logstart + tail + 1) t.block
    t.home.length (t.ready disk cache) apart
  have reads := copy_blocks_read (fun tail => sb.logstart + tail + 1) t.block
    t.home.length (t.ready disk cache) apart (by intro left right _ _ same; omega)
  rw [← logging] at copied reads
  generalize writeLog (t.ready disk cache) = logged at copied reads
  have begins : logged.start = sb.logstart := copied.start
  have header : logged.lh = { n := t.home.length, block := t.block } := copied.lh
  have int := t.int
  exists storeHead logged.lh (bread logged sb.logstart)
  constructor
  case start => exact begins
  case lh => exact header
  case writes =>
    rw [writeHead, bwrite, begins, copied.writes]
    rfl
  case logged =>
    intro index bound
    rw [writeHead, bread_bwrite_other _ _ _ _ (by omega)]
    exact reads index bound
  case headN =>
    rw [head_n_store _ _ (by simp [header]) (by rw [header]; dsimp only; omega), header]
  case headBlock =>
    intro index bound
    rw [header]
    apply head_block_store
    · dsimp only
      omega
    · exact t.uint _ (t.block_mem index bound)

/-- The writes of a commit of at least one block, in order: the log blocks, the
header that names them, the home blocks, and the cleared header. -/
theorem commit_writes (t : Transaction sb) (disk : Store Buffer) (cache : Nat → Option Buffer)
    (busy : 0 < t.home.length) : ∃ head cleared, headN head = t.home.length ∧
    (∀ index, index < t.home.length → headBlock head index = t.block index) ∧ headN cleared = 0 ∧
    (commit (t.ready disk cache)).writes = loopWrites (fun tail => sb.logstart + tail + 1)
    (fun index => bread (t.ready disk cache) (t.block index)) t.home.length ++
    [(sb.logstart, head)] ++
    (loopWrites t.block (fun index => bread (t.ready disk cache) (t.block index))
    t.home.length ++ [(sb.logstart, cleared)]) := by
  obtain ⟨head, named⟩ := write_head_named t disk cache
  have committing : commit (t.ready disk cache) =
      writeHead (eraseHead (installTrans (writeHead (writeLog (t.ready disk cache))))) := by
    rw [commit, if_pos (by simpa [Transaction.ready] using busy)]
  rw [committing]
  generalize writeHead (writeLog (t.ready disk cache)) = log at named
  have count : log.lh.n.toNat = t.home.length := by simp [named.lh]
  have block : log.lh.block = t.block := by rw [named.lh]
  obtain ⟨cleared, clear, writes, -⟩ := install_and_erase log (by
    rw [count, block, named.start]
    intro written read boundWritten boundRead
    exact t.block_off_log written (read + 1) boundWritten boundRead)
  have contents : loopWrites t.block (fun index => bread log (sb.logstart + index + 1))
        t.home.length =
      loopWrites t.block (fun index => bread (t.ready disk cache) (t.block index))
        t.home.length :=
    loop_writes_congr _ _ _ _ _ (fun _ _ => rfl) named.logged
  rw [count, block, named.start, named.writes, contents] at writes
  exact ⟨head, cleared, named.headN, named.headBlock, clear, writes⟩

theorem committed_named
    (rest : ∀ blockno, OutsideLog sb blockno → blockno ∉ t.home → disk blockno = old blockno)
    (head : Buffer) (room : 0 < sb.nlog) (named : headN head = t.home.length)
    (blocks : ∀ index, index < t.home.length → headBlock head index = t.block index) :
    Committed t old new (applyWrites (loopWrites (fun tail => sb.logstart + tail + 1)
    (fun index => new (t.block index)) t.home.length ++ [(sb.logstart, head)]) disk) := by
  rw [apply_writes_append]
  simp only [applyWrites]
  constructor
  · rw [update_self]
    exact named
  · rw [update_self]
    exact blocks
  · intro index bound
    rw [update_of_ne (by omega)]
    exact loop_writes_at (fun tail => sb.logstart + tail + 1)
      (fun index => new (t.block index)) t.home.length disk
      (by intro left right _ _ same; omega) index bound
  · intro blockno outside fresh
    rw [header_outside head room blockno outside, logging_outside _ _ t.fits blockno outside]
    exact rest blockno outside fresh

theorem crash_after_header (t : Transaction sb) (disk : Store Buffer) (cache : Nat → Option Buffer)
    (room : 0 < sb.nlog) (busy : 0 < t.home.length) : Committed t disk (bread (t.ready disk cache))
    (crashCommit (t.ready disk cache) (t.home.length + 1)) ∧ ∀ blockno, OutsideLog sb blockno →
    crashCommit (t.ready disk cache) (t.home.length + 1) blockno = disk blockno := by
  obtain ⟨head, cleared, named, blocks, -, writes⟩ := commit_writes t disk cache busy
  rw [crashCommit, writes, List.take_append_of_le_length (by simp [loop_writes_length]),
    List.take_of_length_le (by simp [loop_writes_length])]
  refine ⟨committed_named (fun _ _ _ => rfl) head room named blocks, ?_⟩
  intro blockno outside
  rw [apply_writes_append]
  simp only [applyWrites]
  rw [header_outside head room blockno outside]
  exact logging_outside _ _ t.fits blockno outside

theorem commit_crash_shape (t : Transaction sb) (disk : Store Buffer) (cache : Nat → Option Buffer)
    (room : 0 < sb.nlog) (clear : headN (disk sb.logstart) = 0) (kept : Nat) :
    CrashShape t disk (bread (t.ready disk cache)) (crashCommit (t.ready disk cache) kept) := by
  have untouched : Settled t disk disk disk := ⟨clear, fun _ _ => rfl, fun _ _ _ => rfl⟩
  rcases Nat.eq_zero_or_pos t.home.length with empty | busy
  · left
    have idle : (commit (t.ready disk cache)).writes = [] := by
      simp [commit, Transaction.ready, empty]
    rw [crashCommit, idle, List.take_nil]
    exact untouched
  · obtain ⟨head, cleared, named, blocks, erased, writes⟩ := commit_writes t disk cache busy
    rw [crashCommit, writes]
    by_cases early : kept ≤ t.home.length
    · left
      rw [List.append_assoc, List.take_append_of_le_length (by
        rw [loop_writes_length]; exact early), loop_writes_take, Nat.min_eq_left early]
      exact settled_logging untouched _ kept early
    · have committed : Committed t disk (bread (t.ready disk cache)) _ :=
        committed_named untouched.rest head room named blocks
      rw [List.take_append, List.take_of_length_le (by
        simp [loop_writes_length]; omega), apply_writes_append]
      exact committed_prefix committed room cleared erased _

/-- Whatever prefix of the commit's writes reaches the disk, and however often the
recovery crashes, the home blocks end up all old or all as the cache held them. -/
theorem commit_atomic_across_crashes (groups : Nat) (t : Transaction (mkfsSuperblock groups))
    (disk : Store Buffer) (cache : Nat → Option Buffer)
    (clear : headN (disk (mkfsSuperblock groups).logstart) = 0) (kept : Nat) (crashes : List Nat) :
    Atomic t disk (bread (t.ready disk cache)) (recoveredDisk t disk cache kept crashes) := by
  have room : 0 < (mkfsSuperblock groups).nlog := by
    norm_num [mkfsSuperblock, logsize, maxopblocks]
  have crashed := commit_crash_shape t disk cache room clear kept
  have survived := recoveries_keep_shape room crashes crashed
  rcases recovery_settles room survived with untouched | installed
  · exact ⟨.inl untouched.home, untouched.rest, untouched.head⟩
  · exact ⟨.inr installed.home, installed.rest, installed.head⟩

def blankDisk : Store Buffer := fun _ _ => 0

def bitmapUpdate : Transaction (mkfsSuperblock 1) where
  home := [32, 36]
  distinct := by decide
  outside := by
    intro blockno member
    simp only [List.mem_cons, List.not_mem_nil, or_false] at member
    rcases member with rfl | rfl <;>
      norm_num [OutsideLog, mkfsSuperblock, logsize, maxopblocks]
  uint := by
    intro blockno member
    simp only [List.mem_cons, List.not_mem_nil, or_false] at member
    omega
  fits := by norm_num [mkfsSuperblock, logsize, maxopblocks]
  int := by norm_num

/-- The machine stops with the header written and one home block installed, then
again right at the start of its first recovery. -/
theorem bitmap_update_atomic_across_crashes : headN (blankDisk (mkfsSuperblock 1).logstart) = 0 ∧
      Atomic bitmapUpdate blankDisk (bread (bitmapUpdate.ready blankDisk fun _ => some fun _ => 1))
        (recoveredDisk bitmapUpdate blankDisk (fun _ => some fun _ => 1) 4 [0]) := by
  have clear : headN (blankDisk (mkfsSuperblock 1).logstart) = 0 := by decide
  exact ⟨clear, commit_atomic_across_crashes 1 bitmapUpdate blankDisk _ clear 4 [0]⟩

end Xv6Hacks.CrashRecovery
