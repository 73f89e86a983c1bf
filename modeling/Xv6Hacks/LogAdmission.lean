import Xv6Hacks.LogProtocol

/-!
# Log admission

`begin_op` admits an operation when `MAXOPBLOCKS` more blocks fit beside the blocks in
the log and `MAXOPBLOCKS` for every operation already running. `log_write` however
refuses the last block of the log, because one of the `nlog` blocks is the header. So
the reservation is short by one, and it suffices for operations that log at most
`MAXOPBLOCKS - 1` blocks.
-/

namespace Xv6Hacks.LogAdmission

open BlockGroupLayout GuardedRuns LogProtocol

def logsAtMost (bound : Nat) (log : Log) : Action → Bool
  | .logWrite p blockno =>
    match log.pc p with
    | .inOp _ mine => decide ((mine.insert blockno).length ≤ bound)
    | _ => true
  | _ => true

def mine : Pc → List Nat
  | .inOp _ mine => mine
  | .writing _ mine _ => mine
  | _ => []

def reserve (pc : Pc) : Nat := maxopblocks - (mine pc).length

/-- The blocks in the log and the reservations fit together; a process that is alone has
logged everything itself, or an operation has ended and left something of its own. -/
structure Reserved (inside : Finset Nat) (log : Log) : Prop where
  size : log.size = logsize
  once : ∀ p ∈ inside, (mine (log.pc p)).Nodup
  logged : ∀ p ∈ inside, ∀ blockno ∈ mine (log.pc p), blockno ∈ log.block
  bound : ∀ p ∈ inside, (mine (log.pc p)).length < maxopblocks
  pending : ∀ p op own blockno, log.pc p = .writing op own blockno →
    (own.insert blockno).length < maxopblocks
  room : log.block.length + ∑ p ∈ inside, reserve (log.pc p) ≤ logsize
  alone : ∀ p, inside = {p} → log.block.length ≤ (mine (log.pc p)).length ∨
    log.block.length + ∑ p ∈ inside, reserve (log.pc p) < logsize

def Orderly (block own : List Nat) : Prop :=
  own.Nodup ∧ (∀ blockno ∈ own, blockno ∈ block) ∧ own.length < maxopblocks

section Steps
variable {inside : Finset Nat} {log after : Log} {action : Action} {p : Nat}

theorem reserved_of_orderly (size : log.size = logsize)
    (each : ∀ q ∈ inside, Orderly log.block (mine (log.pc q)))
    (pending : ∀ p op own blockno, log.pc p = .writing op own blockno →
    (own.insert blockno).length < maxopblocks)
    (room : log.block.length + ∑ p ∈ inside, reserve (log.pc p) ≤ logsize)
    (alone : ∀ p, inside = {p} → log.block.length ≤ (mine (log.pc p)).length ∨
    log.block.length + ∑ p ∈ inside, reserve (log.pc p) < logsize) : Reserved inside log :=
  ⟨size, fun q member => (each q member).1, fun q member => (each q member).2.1,
    fun q member => (each q member).2.2, pending, room, alone⟩

theorem reserve_sum_congr {set : Finset Nat} (mines : ∀ q ∈ set, mine (after.pc q) = mine (log.pc q)) :
    ∑ q ∈ set, reserve (after.pc q) = ∑ q ∈ set, reserve (log.pc q) := by
  apply Finset.sum_congr rfl
  intro q member
  rw [reserve, reserve, mines q member]

theorem reserved_empty (size : log.size = logsize) (room : log.block.length ≤ logsize)
    (invariant : Invariant ∅ log) : Reserved ∅ log where
  size := size
  once := by simp
  logged := by simp
  bound := by simp
  pending := by
    intro q op own blockno here
    have member := invariant.member (show (log.pc q).op = some op by rw [here]; rfl)
    simp at member
  room := by simpa using room
  alone := by
    intro q single
    exact absurd single.symm (Finset.singleton_ne_empty q)

theorem reserve_sum_le : ∑ q ∈ inside, reserve (log.pc q) ≤ inside.card * maxopblocks := by
  have bound := Finset.sum_le_card_nsmul inside (fun q => reserve (log.pc q)) maxopblocks
    fun q _ => Nat.sub_le _ _
  simpa using bound

theorem op_none_mine {pc : Pc} (none : pc.op = none) : mine pc = [] := by
  cases pc with
  | inOp op own => cases none
  | writing op own blockno => cases none
  | _ => rfl

theorem wake_mine (pc : Pc) : mine (wake pc) = mine pc := by cases pc <;> rfl

theorem wake_writing {pc : Pc} {op blockno : Nat} {own : List Nat}
    (writing : wake pc = .writing op own blockno) : pc = .writing op own blockno := by
  cases pc with
  | writing op' own' blockno' => exact writing
  | _ => simp [wake] at writing

theorem sum_change (member : p ∈ inside) (others : ∀ q ∈ inside, q ≠ p → after.pc q = log.pc q) :
    ∑ q ∈ inside, reserve (after.pc q) + reserve (log.pc p) =
    ∑ q ∈ inside, reserve (log.pc q) + reserve (after.pc p) := by
  have apart : ∑ q ∈ inside.erase p, reserve (after.pc q) =
      ∑ q ∈ inside.erase p, reserve (log.pc q) := by
    apply Finset.sum_congr rfl
    intro q kept
    rw [others q (Finset.mem_of_mem_erase kept) (Finset.ne_of_mem_erase kept)]
  have first := Finset.add_sum_erase inside (fun q => reserve (after.pc q)) member
  have second := Finset.add_sum_erase inside (fun q => reserve (log.pc q)) member
  omega

section
variable (reserved : Reserved inside log)
include reserved

theorem Reserved.orderly {q : Nat} (member : q ∈ inside) : Orderly log.block (mine (log.pc q)) :=
  ⟨reserved.once q member, reserved.logged q member, reserved.bound q member⟩

theorem Reserved.same (size : after.size = log.size) (block : after.block = log.block)
    (mines : ∀ q, mine (after.pc q) = mine (log.pc q))
    (pending : ∀ q op own blockno, after.pc q = .writing op own blockno →
    (own.insert blockno).length < maxopblocks) : Reserved inside after := by
  have sums := reserve_sum_congr fun q (_ : q ∈ inside) => mines q
  refine reserved_of_orderly (size.trans reserved.size) (fun q member => ?_) pending ?_ ?_
  · rw [block, mines q]
    exact reserved.orderly member
  · rw [block, sums]
    exact reserved.room
  · simpa only [block, sums, mines] using reserved.alone

theorem Reserved.move {pc : Pc} (mines : mine pc = mine (log.pc p))
    (pending : ∀ op own blockno, pc = .writing op own blockno →
    (own.insert blockno).length < maxopblocks) : Reserved inside (setPc log p pc) :=
  reserved.same rfl rfl (set_pc_congr mine mines) fun q op own blockno writing =>
    (set_pc_cases writing).elim (pending op own blockno) (reserved.pending q op own blockno)

theorem Reserved.enter (invariant : Invariant inside log) (fromOp : (log.pc p).op = none)
    (free : log.committing = false)
    (admitted : (log.block.length : Int) + (log.outstanding + 1) * maxopblocks ≤ logsize) :
    Reserved (insert p inside)
      (setPc { log with outstanding := log.outstanding + 1, nextOp := log.nextOp + 1 } p
        (.inOp log.nextOp [])) := by
  have new : p ∉ inside := by
    rw [invariant.members p, fromOp]
    simp
  have none := op_none_mine fromOp
  have mines (q : Nat) : mine ((setPc log p (.inOp log.nextOp [])).pc q) = mine (log.pc q) :=
    set_pc_congr mine (by rw [none]; rfl) q
  refine reserved_of_orderly reserved.size (fun q member => ?_)
    (fun q op own blockno writing => ?_) ?_ fun q single => ?_
  · change Orderly log.block (mine ((setPc log p _).pc q))
    rw [mines q]
    rcases Finset.mem_insert.mp member with rfl | before
    · rw [none]
      exact ⟨List.nodup_nil, by simp, by decide⟩
    · exact reserved.orderly before
  · exact (set_pc_cases writing).elim (by simp) (reserved.pending q op own blockno)
  · have bound := @reserve_sum_le (insert p inside) (setPc log p (.inOp log.nextOp []))
    rw [Finset.card_insert_of_notMem new] at bound
    rw [invariant.count] at admitted
    change log.block.length + ∑ q ∈ insert p inside,
      reserve ((setPc log p (.inOp log.nextOp [])).pc q) ≤ logsize
    simp only [maxopblocks, logsize] at *
    omega
  · have idle : inside = ∅ := by
      refine Finset.eq_empty_of_forall_notMem fun r member => new ?_
      have inserted : r ∈ insert p inside := Finset.mem_insert_of_mem member
      have first : p ∈ insert p inside := Finset.mem_insert_self p inside
      rw [single, Finset.mem_singleton] at inserted first
      rw [first, ← inserted]
      exact member
    left
    change log.block.length ≤ _
    rw [invariant.idle free idle]
    exact Nat.zero_le _

theorem Reserved.record {op blockno : Nat} {own block : List Nat} {writes : List (Nat × Nat)}
    (member : p ∈ inside) (writing : log.pc p = .writing op own blockno)
    (recorded : blockno ∈ log.block ∧ block = log.block ∨
      blockno ∉ log.block ∧ block = log.block ++ [blockno]) : Reserved inside
      (setPc { log with block := block, writes := writes } p (.inOp op (own.insert blockno))) := by
  have before : mine (log.pc p) = own := by
    rw [writing]
    rfl
  have pending := reserved.pending p op own blockno writing
  obtain ⟨once, logged, bound⟩ := before ▸ reserved.orderly member
  have blocks {number : Nat} (either : number = blockno ∨ number ∈ log.block) : number ∈ block := by
    rcases recorded with ⟨old, rfl⟩ | ⟨-, rfl⟩
    · exact either.elim (· ▸ old) id
    · simpa [or_comm] using either
  -- A block new to the log is new to the operation.
  have lengths : ((own.insert blockno).length = own.length ∧ block.length = log.block.length) ∨
      ((own.insert blockno).length = own.length + 1 ∧
        (block.length = log.block.length ∨ block.length = log.block.length + 1)) := by
    by_cases old : blockno ∈ own
    · rcases recorded with ⟨-, rfl⟩ | ⟨new, -⟩
      · simp [old]
      · exact absurd (logged blockno old) new
    · rcases recorded with ⟨-, rfl⟩ | ⟨-, rfl⟩ <;> simp [old]
  have sums := @sum_change inside log (setPc log p (.inOp op (own.insert blockno))) p member
    fun q _ different => set_pc_other _ _ _ _ different
  rw [reserve, reserve, before, set_pc_same, mine] at sums
  have room := reserved.room
  refine reserved_of_orderly reserved.size (fun q inOp => ?_)
    (fun q op' own' blockno' writes => ?_) ?_ fun q single => ?_
  · by_cases same : q = p
    · rw [same, set_pc_same]
      exact ⟨once.insert, fun number inserted =>
        blocks ((List.mem_insert_iff.mp inserted).imp_right (logged number)), pending⟩
    · rw [set_pc_other _ _ _ _ same]
      obtain ⟨once, logged, bound⟩ := reserved.orderly inOp
      exact ⟨once, fun number logs => blocks (.inr (logged number logs)), bound⟩
  · exact (set_pc_cases writes).elim (by simp) (reserved.pending q op' own' blockno')
  · change block.length + ∑ q ∈ inside, reserve ((setPc log p (.inOp op _)).pc q) ≤ _
    omega
  · obtain rfl : p = q := by
      rw [single] at member
      exact Finset.mem_singleton.mp member
    rw [set_pc_same]
    change block.length ≤ (own.insert blockno).length ∨
      block.length + ∑ q ∈ inside, reserve ((setPc log p (.inOp op _)).pc q) < _
    rcases reserved.alone p single with all | left
    · rw [before] at all
      omega
    · omega

theorem Reserved.leave (member : p ∈ inside) (size : after.size = log.size)
    (block : after.block = log.block) (others : ∀ q, q ≠ p → mine (after.pc q) = mine (log.pc q))
    (pending : ∀ q op own blockno, after.pc q = .writing op own blockno →
    (own.insert blockno).length < maxopblocks) : Reserved (inside.erase p) after := by
  have mines (q : Nat) (kept : q ∈ inside.erase p) := others q (Finset.ne_of_mem_erase kept)
  have sums := reserve_sum_congr mines
  have total := Finset.add_sum_erase inside (fun q => reserve (log.pc q)) member
  have own : 0 < reserve (log.pc p) := Nat.sub_pos_of_lt (reserved.bound p member)
  have room := reserved.room
  refine reserved_of_orderly (size.trans reserved.size) (fun q kept => ?_) pending ?_ fun q _ => ?_
  · rw [block, mines q kept]
    exact reserved.orderly (Finset.mem_of_mem_erase kept)
  · rw [block, sums]
    omega
  · right
    rw [block, sums]
    omega

end

theorem Move.reserved (move : Move log action after) (invariant : Invariant inside log)
    (allowed : logsAtMost (maxopblocks - 1) log action = true) (reserved : Reserved inside log) :
    Reserved (insideAfter inside after action) after := by
  cases move with
  | sleep p fromOp fromCommits waits =>
    rw [insideAfter, set_pc_same]
    exact reserved.move (op_none_mine fromOp).symm (by simp)
  | enter p fromOp free admitted =>
    rw [insideAfter, set_pc_same]
    exact reserved.enter invariant fromOp free admitted
  | write p op own blockno place =>
    simp only [logsAtMost, place, decide_eq_true_eq] at allowed
    refine reserved.move (by rw [place]; rfl) ?_
    rintro op own number ⟨⟩
    exact allowed.trans_lt (by decide)
  | record p op own blockno block place recorded =>
    have member := invariant.member (show (log.pc p).op = some op by rw [place]; rfl)
    exact reserved.record member place recorded
  | last p op own place alone =>
    have member := invariant.member (show (log.pc p).op = some op by rw [place]; rfl)
    refine reserved.leave member rfl rfl (fun q different => ?_) fun q op own blockno writing => ?_
    · rw [set_pc_other _ _ _ _ different]
    · exact (set_pc_cases writing).elim (by simp) (reserved.pending q op own blockno)
  | leave p op own place more =>
    have member := invariant.member (show (log.pc p).op = some op by rw [place]; rfl)
    refine reserved.leave member rfl rfl (fun q different => ?_) fun q op own blockno writing => ?_
    · rw [set_pc_other _ _ _ _ different]
      exact wake_mine _
    · exact (set_pc_cases writing).elim (by simp)
        fun woken => reserved.pending q op own blockno (wake_writing woken)
  | writeLog p commits place written =>
    have recorded : Reserved inside { log with commits := commits } :=
      reserved.same rfl rfl (fun _ => rfl) reserved.pending
    exact recorded.move (by rw [place]; rfl) (by simp)
  | eraseLog p place =>
    have now := (Move.eraseLog p place).invariant invariant
    have commits : (log.pc p).commits = true := by rw [place]; rfl
    obtain rfl := invariant.quiet (invariant.committer p commits)
    exact reserved_empty reserved.size (Nat.zero_le _) now
  | endCommit p place =>
    refine reserved.same rfl rfl (fun q => ?_) fun q op own blockno writing => ?_
    · rw [endCommit]
      by_cases here : q = p
      · rw [here, set_pc_same, place]
        rfl
      · rw [set_pc_other _ _ _ _ here]
        exact wake_mine _
    · exact (set_pc_cases writing).elim (by simp)
        fun woken => reserved.pending q op own blockno (wake_writing woken)
  | kill p place => exact reserved.move (by rw [place]; rfl) (by simp)

end Steps

theorem Reserved.room_left {inside : Finset Nat} {log : Log} {p : Nat}
    (reserved : Reserved inside log) (member : p ∈ inside) : log.block.length + 1 < logsize := by
  have each (q : Nat) (inOp : q ∈ inside) : 0 < reserve (log.pc q) := by
    have bound := reserved.bound q inOp
    rw [reserve]
    omega
  have total := Finset.add_sum_erase inside (fun q => reserve (log.pc q)) member
  have own := each p member
  have room := reserved.room
  by_cases single : inside = {p}
  · have bound := reserved.bound p member
    rcases reserved.alone p single with all | left
    · simp only [maxopblocks, logsize] at *
      omega
    · omega
  · -- Somebody else has a block reserved too.
    have other : ∃ q ∈ inside.erase p, True := by
      by_contra none
      apply single
      apply Finset.eq_singleton_iff_unique_mem.mpr
      refine ⟨member, fun q inOp => ?_⟩
      by_contra different
      exact none ⟨q, Finset.mem_erase.mpr ⟨different, inOp⟩, trivial⟩
    obtain ⟨q, kept, -⟩ := other
    have theirs := each q (Finset.mem_of_mem_erase kept)
    have part := Finset.single_le_sum (fun r _ => Nat.zero_le (reserve (log.pc r))) kept
    omega

/-- Operations that log at most nine blocks never fill the log. -/
theorem admission_suffices_for_nine (groups : Nat) (log : Log)
    (reached : Reaches step (fun log action => logsAtMost (maxopblocks - 1) log action = true)
      (initlog (mkfsSuperblock groups)) log) (action : Action) :
    outcome log action ≠ some (.error .tooBigATransaction) := by
  obtain ⟨inside, invariant, reserved⟩ : ∃ inside, Invariant inside log ∧ Reserved inside log := by
    apply reaches_invariant (fun log => ∃ inside, Invariant inside log ∧ Reserved inside log) _ _
      reached
    · have start := initlog_invariant (mkfsSuperblock groups)
      exact ⟨∅, start, reserved_empty rfl (Nat.zero_le _) start⟩
    · rintro before taken after ⟨inside, invariant, reserved⟩ allowed steps
      have move := step_move steps
      exact ⟨_, move.invariant invariant, Move.reserved move invariant allowed reserved⟩
  intro stops
  obtain ⟨p, active, ⟨-, full⟩ | ⟨⟨⟩, -⟩ | ⟨⟨⟩, -⟩ | ⟨⟨⟩⟩⟩ := outcome_error stops
  have room := reserved.room_left ((invariant.members p).mpr active)
  rw [reserved.size] at full
  omega

def logBlocks (p first count : Nat) : List Action :=
  (List.range count).flatMap fun i => [.logWrite p (first + i), .record p]

def nineEach : List Action :=
  [.beginOp 0, .beginOp 1, .beginOp 2] ++ logBlocks 0 100 9 ++ logBlocks 1 110 9 ++
    logBlocks 2 120 9

/-- Three operations with nine blocks each; a tenth block of one of them would still fit. -/
theorem nine_blocks_each_admitted :
    ∃ log, runChecked step (logsAtMost (maxopblocks - 1)) (initlog (mkfsSuperblock blockgroups))
        nineEach = some log ∧ log.block.length = 27 ∧ log.outstanding = 3 ∧
      outcome log (.logWrite 0 130) ≠ some (.error .tooBigATransaction) := by
  have holds : (runChecked step (logsAtMost (maxopblocks - 1))
      (initlog (mkfsSuperblock blockgroups)) nineEach).any (fun log =>
        decide (log.block.length = 27 ∧ log.outstanding = 3)) = true := by decide
  cases ran : runChecked step (logsAtMost (maxopblocks - 1))
      (initlog (mkfsSuperblock blockgroups)) nineEach with
  | none => simp [ran] at holds
  | some log =>
    simp only [ran, Option.any_some, decide_eq_true_eq] at holds
    exact ⟨log, rfl, holds.1, holds.2,
      admission_suffices_for_nine blockgroups log (reaches_of_run_checked _ _ _ ran) _⟩

/-- Three operations are admitted to the empty log, and the third is about to log its
tenth block. -/
def threeOperations : List Action :=
  [.beginOp 0, .beginOp 1, .beginOp 2] ++ logBlocks 0 100 10 ++ logBlocks 1 110 10 ++
    logBlocks 2 120 9

def panics (log : Log) (action : Action) : Bool :=
  match outcome log action with
  | some (.error .tooBigATransaction) => true
  | _ => false

theorem panics_outcome {log : Log} {action : Action} (stops : panics log action = true) :
    outcome log action = some (.error .tooBigATransaction) := by
  rw [panics] at stops
  split at stops
  · assumption
  · contradiction

/-- Operations within `MAXOPBLOCKS` panic. -/
theorem third_full_operation_panics :
    ¬ ∀ log, Reaches step (fun log action => logsAtMost maxopblocks log action = true)
        (initlog (mkfsSuperblock blockgroups)) log →
      ∀ action, logsAtMost maxopblocks log action = true →
        outcome log action ≠ some (.error .tooBigATransaction) := by
  intro never
  have fails : (runChecked step (logsAtMost maxopblocks) (initlog (mkfsSuperblock blockgroups))
      threeOperations).any (fun log => logsAtMost maxopblocks log (.logWrite 2 129) &&
        panics log (.logWrite 2 129)) = true := by decide
  cases ran : runChecked step (logsAtMost maxopblocks) (initlog (mkfsSuperblock blockgroups))
      threeOperations with
  | none => simp [ran] at fails
  | some log =>
    simp only [ran, Option.any_some, Bool.and_eq_true] at fails
    exact never log (reaches_of_run_checked _ _ _ ran) _ fails.1 (panics_outcome fails.2)

end Xv6Hacks.LogAdmission
