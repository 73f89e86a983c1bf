import Xv6Hacks.BlockGroupLayout
import Xv6Hacks.GuardedRuns
import Mathlib.Algebra.BigOperators.Group.Finset.Basic
import Mathlib.Data.Finset.Card

/-!
# Group commit

`begin_op`, `log_write` and `end_op` of `log.c`, called by any number of processes. A
step is one section between `acquire` and `release` of `log.lock`, or one of the parts
that run without the lock: the checks at the head of `log_write` and the phases of
`commit`. Which operation wrote what, and which operations have ended, is recorded in
history fields that no step reads.

Processes are numbered, and all of them start outside an operation.
-/

namespace Xv6Hacks.LogProtocol

open BlockGroupLayout Function GuardedRuns

/-- Why the kernel stops. `blockIndex` is a store behind the end of `lh.block`. -/
inductive Panic where
  | tooBigATransaction
  | logWriteOutsideOfTrans
  | logCommitting
  | blockIndex
  deriving DecidableEq, Repr

/-- Where a process stands. Inside an operation, `mine` are the blocks it has logged. -/
inductive Pc where
  | outside
  | starting
  | asleep
  | inOp (op : Nat) (mine : List Nat)
  | writing (op : Nat) (mine : List Nat) (blockno : Nat)
  | committing
  | installed
  | erased
  deriving DecidableEq, Repr

/-- A transaction that `commit` wrote to the log: its blocks, and from the history who
had logged them and which operations had ended. -/
structure Commit where
  blocks : List Nat
  writes : List (Nat × Nat)
  ended : List Nat

structure Log where
  size : Int
  outstanding : Int
  committing : Bool
  /-- `lh.block` up to `lh.n`. -/
  block : List Nat
  pc : Nat → Pc
  nextOp : Nat
  writes : List (Nat × Nat)
  ended : List Nat
  commits : List Commit

inductive Action where
  | beginOp (p : Nat)
  | logWrite (p blockno : Nat)
  | record (p : Nat)
  | endOp (p : Nat)
  | writeLog (p : Nat)
  | eraseLog (p : Nat)
  | endCommit (p : Nat)
  | kill (p : Nat)

def setPc (log : Log) (p : Nat) (pc : Pc) : Log := { log with pc := update log.pc p pc }

def wake : Pc → Pc
  | .asleep => .starting
  | pc => pc

def wakeup (log : Log) : Log := { log with pc := fun p => wake (log.pc p) }

/-- One round of the loop of `begin_op`. -/
def beginOp (log : Log) (p : Nat) : Log :=
  if log.committing then setPc log p .asleep
  else if (log.block.length : Int) + (log.outstanding + 1) * maxopblocks > logsize then
    setPc log p .asleep
  else
    setPc { log with outstanding := log.outstanding + 1, nextOp := log.nextOp + 1 } p
      (.inOp log.nextOp [])

def logWrite (log : Log) (p op : Nat) (mine : List Nat) (blockno : Nat) : Except Panic Log :=
  if (log.block.length : Int) ≥ logsize ∨ (log.block.length : Int) ≥ log.size - 1 then
    .error .tooBigATransaction
  else if log.outstanding < 1 then .error .logWriteOutsideOfTrans
  else .ok (setPc log p (.writing op mine blockno))

/-- The locked section of `log_write`. -/
def record (log : Log) (p op : Nat) (mine : List Nat) (blockno : Nat) : Except Panic Log :=
  let log := setPc { log with writes := (op, blockno) :: log.writes } p
    (.inOp op (mine.insert blockno))
  if blockno ∈ log.block then .ok log
  else if log.block.length < logsize then .ok { log with block := log.block ++ [blockno] }
  else .error .blockIndex

/-- The first locked section of `end_op`. -/
def endOp (log : Log) (p op : Nat) : Except Panic Log :=
  let log := { log with outstanding := log.outstanding - 1, ended := op :: log.ended }
  if log.committing then .error .logCommitting
  else if log.outstanding = 0 then .ok (setPc { log with committing := true } p .committing)
  else .ok (setPc (wakeup log) p .outside)

/-- `write_log` and `write_head`, which an empty transaction skips. -/
def writeLog (log : Log) (p : Nat) : Log :=
  if log.block = [] then setPc log p .installed
  else
    setPc { log with commits := ⟨log.block, log.writes, log.ended⟩ :: log.commits } p .installed

def eraseLog (log : Log) (p : Nat) : Log := setPc { log with block := [], writes := [] } p .erased

/-- The second locked section of `end_op`. -/
def endCommit (log : Log) (p : Nat) : Log := setPc (wakeup { log with committing := false }) p .outside

/-- What an action does, if the process is at the place for it. `kill` wakes a sleeper. -/
def outcome (log : Log) : Action → Option (Except Panic Log)
  | .beginOp p =>
    match log.pc p with
    | .outside => some (.ok (beginOp log p))
    | .starting => some (.ok (beginOp log p))
    | _ => none
  | .logWrite p blockno =>
    match log.pc p with
    | .inOp op mine => some (logWrite log p op mine blockno)
    | _ => none
  | .record p =>
    match log.pc p with
    | .writing op mine blockno => some (record log p op mine blockno)
    | _ => none
  | .endOp p =>
    match log.pc p with
    | .inOp op _ => some (endOp log p op)
    | _ => none
  | .writeLog p => if log.pc p = .committing then some (.ok (writeLog log p)) else none
  | .eraseLog p => if log.pc p = .installed then some (.ok (eraseLog log p)) else none
  | .endCommit p => if log.pc p = .erased then some (.ok (endCommit log p)) else none
  | .kill p => if log.pc p = .asleep then some (.ok (setPc log p .starting)) else none

def step (log : Log) (action : Action) : Option Log :=
  match outcome log action with
  | some (.ok after) => some after
  | _ => none

def initlog (sb : Superblock) : Log where
  size := sb.nlog
  outstanding := 0
  committing := false
  block := []
  pc := fun _ => .outside
  nextOp := 0
  writes := []
  ended := []
  commits := []

def Pc.op : Pc → Option Nat
  | .inOp op _ => some op
  | .writing op _ _ => some op
  | _ => none

def Pc.commits : Pc → Bool
  | .committing => true
  | .installed => true
  | .erased => true
  | _ => false

@[simp] theorem wake_op (pc : Pc) : (wake pc).op = pc.op := by cases pc <;> rfl

@[simp] theorem wake_commits (pc : Pc) : (wake pc).commits = pc.commits := by cases pc <;> rfl

theorem wake_not_asleep (pc : Pc) : wake pc ≠ .asleep := by
  cases pc with
  | asleep => simp [wake]
  | _ => simp [wake]

@[simp] theorem set_pc_same (log : Log) (p : Nat) (pc : Pc) : (setPc log p pc).pc p = pc :=
  update_self _ _ _

theorem set_pc_other (log : Log) (p q : Nat) (pc : Pc) (different : q ≠ p) :
    (setPc log p pc).pc q = log.pc q := update_of_ne different _ _

theorem set_pc_cases {log : Log} {p q : Nat} {pc place : Pc}
    (at' : (setPc log p pc).pc q = place) : pc = place ∨ log.pc q = place := by
  by_cases same : q = p
  · subst same
    rw [set_pc_same] at at'
    exact .inl at'
  · rw [set_pc_other _ _ _ _ same] at at'
    exact .inr at'

theorem set_pc_congr {α : Type} (f : Pc → α) {log : Log} {p : Nat} {pc : Pc}
    (same : f pc = f (log.pc p)) (q : Nat) : f ((setPc log p pc).pc q) = f (log.pc q) := by
  by_cases here : q = p
  · rw [here, set_pc_same, same]
  · rw [set_pc_other _ _ _ _ here]

inductive Move (log : Log) : Action → Log → Prop where
  | sleep (p : Nat) (fromOp : (log.pc p).op = none) (fromCommits : (log.pc p).commits = false)
      (waits : log.committing = true ∨
        (log.block.length : Int) + (log.outstanding + 1) * maxopblocks > logsize) :
      Move log (.beginOp p) (setPc log p .asleep)
  | enter (p : Nat) (fromOp : (log.pc p).op = none) (free : log.committing = false)
      (admitted : (log.block.length : Int) + (log.outstanding + 1) * maxopblocks ≤ logsize) :
      Move log (.beginOp p)
        (setPc { log with outstanding := log.outstanding + 1, nextOp := log.nextOp + 1 } p
          (.inOp log.nextOp []))
  | write (p op : Nat) (mine : List Nat) (blockno : Nat) (place : log.pc p = .inOp op mine) :
      Move log (.logWrite p blockno) (setPc log p (.writing op mine blockno))
  | record (p op : Nat) (mine : List Nat) (blockno : Nat) (block : List Nat)
      (place : log.pc p = .writing op mine blockno)
      (recorded : blockno ∈ log.block ∧ block = log.block ∨
        blockno ∉ log.block ∧ block = log.block ++ [blockno]) :
      Move log (.record p)
        (setPc { log with block := block, writes := (op, blockno) :: log.writes } p
          (.inOp op (mine.insert blockno)))
  | last (p op : Nat) (mine : List Nat) (place : log.pc p = .inOp op mine)
      (alone : log.outstanding = 1) :
      Move log (.endOp p)
        (setPc { log with outstanding := log.outstanding - 1, ended := op :: log.ended,
                          committing := true } p .committing)
  | leave (p op : Nat) (mine : List Nat) (place : log.pc p = .inOp op mine)
      (more : log.outstanding ≠ 1) :
      Move log (.endOp p)
        (setPc (wakeup { log with outstanding := log.outstanding - 1,
                                  ended := op :: log.ended }) p .outside)
  | writeLog (p : Nat) (commits : List Commit) (place : log.pc p = .committing)
      (written : commits = log.commits ∨
        commits = ⟨log.block, log.writes, log.ended⟩ :: log.commits) :
      Move log (.writeLog p) (setPc { log with commits := commits } p .installed)
  | eraseLog (p : Nat) (place : log.pc p = .installed) : Move log (.eraseLog p) (eraseLog log p)
  | endCommit (p : Nat) (place : log.pc p = .erased) : Move log (.endCommit p) (endCommit log p)
  | kill (p : Nat) (place : log.pc p = .asleep) : Move log (.kill p) (setPc log p .starting)

section Inversion
variable {log after : Log} {action : Action} {p : Nat}

theorem begin_op_move (fromOp : (log.pc p).op = none) (fromCommits : (log.pc p).commits = false) :
    Move log (.beginOp p) (beginOp log p) := by
  rw [beginOp]
  split
  · rename_i committing
    exact .sleep p fromOp fromCommits (.inl committing)
  · rename_i free
    split
    · rename_i full
      exact .sleep p fromOp fromCommits (.inr full)
    · rename_i admitted
      exact .enter p fromOp (by simpa using free) (not_lt.mp admitted)

theorem step_move (taken : step log action = some after) : Move log action after := by
  have does : outcome log action = some (.ok after) := by
    rw [step] at taken
    split at taken
    · rename_i same
      cases taken
      exact same
    · contradiction
  cases action with
  | beginOp p =>
    simp only [outcome] at does
    split at does
    · rename_i place
      cases does
      exact begin_op_move (by rw [place]; rfl) (by rw [place]; rfl)
    · rename_i place
      cases does
      exact begin_op_move (by rw [place]; rfl) (by rw [place]; rfl)
    · contradiction
  | logWrite p blockno =>
    simp only [outcome] at does
    split at does
    · rename_i op mine place
      simp only [logWrite, Option.some.injEq] at does
      split at does
      · contradiction
      · split at does
        · contradiction
        · cases does
          exact .write p op mine blockno place
    · contradiction
  | record p =>
    simp only [outcome] at does
    split at does
    · rename_i op mine blockno place
      simp only [record, Option.some.injEq] at does
      split at does
      · rename_i old
        cases does
        exact .record p op mine blockno _ place (.inl ⟨old, rfl⟩)
      · rename_i new
        split at does
        · cases does
          exact .record p op mine blockno _ place (.inr ⟨new, rfl⟩)
        · contradiction
    · contradiction
  | endOp p =>
    simp only [outcome] at does
    split at does
    · rename_i op mine place
      simp only [endOp, Option.some.injEq] at does
      split at does
      · contradiction
      · split at does
        · cases does
          exact .last p op mine place (by omega)
        · cases does
          exact .leave p op mine place (by omega)
    · contradiction
  | writeLog p =>
    simp only [outcome, Option.ite_none_right_eq_some] at does
    obtain ⟨place, ⟨⟩⟩ := does
    rw [writeLog]
    split
    · exact .writeLog p _ place (.inl rfl)
    · exact .writeLog p _ place (.inr rfl)
  | eraseLog p =>
    simp only [outcome, Option.ite_none_right_eq_some] at does
    obtain ⟨place, ⟨⟩⟩ := does
    exact .eraseLog p place
  | endCommit p =>
    simp only [outcome, Option.ite_none_right_eq_some] at does
    obtain ⟨place, ⟨⟩⟩ := does
    exact .endCommit p place
  | kill p =>
    simp only [outcome, Option.ite_none_right_eq_some] at does
    obtain ⟨place, ⟨⟩⟩ := does
    exact .kill p place

theorem outcome_error {panic : Panic} (stops : outcome log action = some (.error panic)) :
    ∃ p, (log.pc p).op.isSome ∧ (panic = .tooBigATransaction ∧
    (logsize ≤ (log.block.length : Int) ∨ log.size - 1 ≤ log.block.length) ∨
    panic = .logWriteOutsideOfTrans ∧ log.outstanding < 1 ∨
    panic = .logCommitting ∧ log.committing = true ∨ panic = .blockIndex) := by
  cases action with
  | logWrite p blockno =>
    simp only [outcome] at stops
    split at stops
    · rename_i op mine place
      refine ⟨p, by rw [place]; rfl, ?_⟩
      simp only [logWrite, Option.some.injEq] at stops
      split at stops
      · rename_i full
        cases stops
        exact .inl ⟨rfl, full⟩
      · split at stops
        · rename_i none
          cases stops
          exact .inr (.inl ⟨rfl, none⟩)
        · contradiction
    · contradiction
  | record p =>
    simp only [outcome] at stops
    split at stops
    · rename_i op mine blockno place
      refine ⟨p, by rw [place]; rfl, ?_⟩
      simp only [record, Option.some.injEq] at stops
      split at stops
      · contradiction
      · split at stops
        · contradiction
        · cases stops
          simp
    · contradiction
  | endOp p =>
    simp only [outcome] at stops
    split at stops
    · rename_i op mine place
      refine ⟨p, by rw [place]; rfl, ?_⟩
      simp only [endOp, Option.some.injEq] at stops
      split at stops
      · rename_i committing
        cases stops
        exact .inr (.inr (.inl ⟨rfl, committing⟩))
      · split at stops
        · contradiction
        · contradiction
    · contradiction
  | _ =>
    simp only [outcome] at stops
    split at stops <;> simp at stops

end Inversion

/-- Every logged block was written by an operation, and those operations had ended. -/
def Commit.Finished (commit : Commit) : Prop :=
  (∀ blockno ∈ commit.blocks, ∃ op, (op, blockno) ∈ commit.writes) ∧
    ∀ write ∈ commit.writes, write.1 ∈ commit.ended

/-- `inside` are the processes between `begin_op` and `end_op`. -/
structure Invariant (inside : Finset Nat) (log : Log) : Prop where
  members : ∀ p, p ∈ inside ↔ (log.pc p).op.isSome
  count : log.outstanding = inside.card
  quiet : log.committing = true → inside = ∅
  committer : ∀ p, (log.pc p).commits = true → log.committing = true
  single : ∀ p q, (log.pc p).commits = true → (log.pc q).commits = true → p = q
  nodup : log.block.Nodup
  idle : log.committing = false → inside = ∅ → log.block = []
  erased : ∀ p, log.pc p = .erased → log.block = []
  asleep : ∀ p, log.pc p = .asleep → log.committing = true ∨ inside ≠ ∅
  covered : ∀ blockno ∈ log.block, ∃ op, (op, blockno) ∈ log.writes
  writers : ∀ write ∈ log.writes, write.1 ∈ log.ended ∨ ∃ p, (log.pc p).op = some write.1
  finished : ∀ commit ∈ log.commits, commit.Finished

section Steps
variable {inside : Finset Nat} {log after : Log} {action : Action} {p : Nat}

section
variable (invariant : Invariant inside log)
include invariant

theorem Invariant.member {op : Nat} (active : (log.pc p).op = some op) : p ∈ inside := by
  rw [invariant.members p, active]
  rfl

theorem Invariant.not_committing (member : p ∈ inside) : log.committing = false := by
  by_contra set
  rw [invariant.quiet (by simpa using set)] at member
  simp at member

theorem Invariant.nobody (free : log.committing = false) (q : Nat) :
    (log.pc q).commits = false := by
  by_contra commits
  rw [invariant.committer q (by simpa using commits)] at free
  contradiction

theorem Invariant.move {pc : Pc} (toOp : pc.op = (log.pc p).op)
    (toCommits : pc.commits = (log.pc p).commits)
    (sleeps : pc = .asleep → log.committing = true ∨ inside ≠ ∅)
    (erases : pc = .erased → log.block = []) : Invariant inside (setPc log p pc) :=
  have sameOp := set_pc_congr Pc.op toOp
  have sameCommits := set_pc_congr Pc.commits toCommits
  { invariant with
    members := fun q => by rw [sameOp q]; exact invariant.members q
    committer := fun q => by rw [sameCommits q]; exact invariant.committer q
    single := fun q r => by rw [sameCommits q, sameCommits r]; exact invariant.single q r
    erased := fun q here => (set_pc_cases here).elim erases (invariant.erased q)
    asleep := fun q here => (set_pc_cases here).elim sleeps (invariant.asleep q)
    writers := fun write member => (invariant.writers write member).imp_right
      fun ⟨q, here⟩ => ⟨q, by rw [sameOp q]; exact here⟩ }

theorem Invariant.enter (free : log.committing = false) (fromOp : (log.pc p).op = none) :
    Invariant (insert p inside)
      (setPc { log with outstanding := log.outstanding + 1, nextOp := log.nextOp + 1 } p
        (.inOp log.nextOp [])) := by
  have new : p ∉ inside := by
    rw [invariant.members p, fromOp]
    simp
  have nobody (q : Nat) : ((setPc log p (.inOp log.nextOp [])).pc q).commits = false := by
    rw [set_pc_congr Pc.commits, invariant.nobody free q]
    rw [invariant.nobody free p]
    rfl
  have busy := Finset.insert_ne_empty p inside
  refine { invariant with
    members := fun q => ?_
    count := ?_
    quiet := fun set => absurd (free.symm.trans set) (by simp)
    committer := fun q set => absurd ((nobody q).symm.trans set) (by simp)
    single := fun q r set => absurd ((nobody q).symm.trans set) (by simp)
    idle := fun _ none => absurd none busy
    erased := fun q here => (set_pc_cases here).elim (by simp) (invariant.erased q)
    asleep := fun _ _ => .inr busy
    writers := fun write member => ?_ }
  · rw [Finset.mem_insert]
    by_cases same : q = p
    · simp [same, Pc.op]
    · rw [set_pc_other _ _ _ _ same, invariant.members q]
      simp [same]
  · rw [Finset.card_insert_of_notMem new]
    have before := invariant.count
    change log.outstanding + 1 = _
    push_cast
    omega
  · refine (invariant.writers write member).imp_right fun ⟨q, here⟩ => ⟨q, ?_⟩
    have different : q ≠ p := by
      rintro rfl
      rw [fromOp] at here
      contradiction
    rw [set_pc_other _ _ _ _ different]
    exact here

theorem Invariant.append {op blockno : Nat} {block : List Nat} (writer : (log.pc p).op = some op)
    (appended : block = log.block ∨ (blockno ∉ log.block ∧ block = log.block ++ [blockno])) :
    Invariant inside { log with block := block, writes := (op, blockno) :: log.writes } := by
  have member := invariant.member writer
  have active : inside ≠ ∅ := Finset.ne_empty_of_mem member
  have old {number : Nat} (before : number ∈ log.block) :
      ∃ who, (who, number) ∈ (op, blockno) :: log.writes := by
    obtain ⟨who, wrote⟩ := invariant.covered number before
    exact ⟨who, .tail _ wrote⟩
  refine { invariant with
    nodup := ?_
    idle := fun _ none => absurd none active
    erased := fun q here => ?_
    covered := fun number logged => ?_
    writers := fun write wrote => ?_ }
  · rcases appended with rfl | ⟨new, rfl⟩
    · exact invariant.nodup
    · exact List.nodup_append.mpr ⟨invariant.nodup, List.nodup_singleton blockno,
        fun number before other last same =>
          new (List.mem_singleton.mp last ▸ same ▸ before)⟩
  · have commits := invariant.nobody (invariant.not_committing member) q
    rw [show log.pc q = .erased from here] at commits
    contradiction
  · rcases appended with rfl | ⟨-, rfl⟩
    · exact old logged
    · rcases List.mem_append.mp logged with before | last
      · exact old before
      · rw [List.mem_singleton.mp last]
        exact ⟨op, .head _⟩
  · rcases List.mem_cons.mp wrote with rfl | before
    · exact .inr ⟨p, writer⟩
    · exact invariant.writers write before

/-- The places and the waiting after `end_op` of `p`, without what it does to the flag. -/
theorem Invariant.leave {op : Nat} (writer : (log.pc p).op = some op) (committing : Bool)
    (pcs : Nat → Pc) (others : ∀ q, q ≠ p → pcs q = log.pc q ∨ pcs q = wake (log.pc q))
    (outOp : (pcs p).op = none) (commits : (pcs p).commits = committing)
    (notErased : pcs p ≠ .erased) (alone : committing = true ↔ inside = {p})
    (woken : committing = false → ∀ q, pcs q ≠ .asleep) : Invariant (inside.erase p)
      { log with
        outstanding := log.outstanding - 1, ended := op :: log.ended
        committing := committing, pc := pcs } := by
  have member := invariant.member writer
  have nobody := invariant.nobody (invariant.not_committing member)
  have otherOp (q : Nat) (different : q ≠ p) : (pcs q).op = (log.pc q).op := by
    rcases others q different with same | woken
    · rw [same]
    · rw [woken, wake_op]
  have only {q : Nat} (set : (pcs q).commits = true) : q = p := by
    by_contra different
    rcases others q different with same | woken
    · rw [same, nobody] at set
      contradiction
    · rw [woken, wake_commits, nobody] at set
      contradiction
  refine { invariant with
    members := fun q => ?_
    count := ?_
    quiet := fun set => by rw [alone.mp set, Finset.erase_singleton]
    committer := fun q set => ?_
    single := fun q r left right => (only left).trans (only right).symm
    idle := fun clear none => ?_
    erased := fun q erased => ?_
    asleep := fun q sleeping => ?_
    writers := fun write wrote => ?_ }
  · rw [Finset.mem_erase]
    by_cases same : q = p
    · simp [same, outOp]
    · simp only [otherOp q same, invariant.members q]
      simp [same]
  · change log.outstanding - 1 = _
    rw [Finset.card_erase_of_mem member, invariant.count]
    have positive : 0 < inside.card := Finset.card_pos.mpr ⟨p, member⟩
    omega
  · rw [← commits, ← only set]
    exact set
  · have single : inside = {p} := by
      rw [← Finset.insert_erase member, none]
      rfl
    rw [alone.mpr single] at clear
    contradiction
  · have erased : pcs q = .erased := erased
    have here : q = p := only (by rw [erased]; rfl)
    exact absurd (here ▸ erased) notErased
  · cases set : committing with
    | true => exact .inl rfl
    | false => exact absurd sleeping (woken set q)
  · rcases invariant.writers write wrote with ended | ⟨q, writing⟩
    · exact .inl (.tail _ ended)
    · by_cases same : q = p
      · left
        rw [same, writer] at writing
        cases writing
        exact .head _
      · exact .inr ⟨q, (otherOp q same).trans writing⟩

theorem Invariant.erase : Invariant inside { log with block := [], writes := [] } :=
  { invariant with
    nodup := List.nodup_nil
    idle := fun _ _ => rfl
    erased := fun _ _ => rfl
    covered := by simp
    writers := by simp }

section Committing
variable (commits : (log.pc p).commits = true)
include commits

theorem Invariant.commit :
    Invariant inside { log with commits := ⟨log.block, log.writes, log.ended⟩ :: log.commits } := by
  refine { invariant with finished := fun commit member => ?_ }
  rcases List.mem_cons.mp member with rfl | before
  · refine ⟨invariant.covered, fun write wrote => ?_⟩
    rcases invariant.writers write wrote with ended | ⟨q, writing⟩
    · exact ended
    · have inOp := invariant.member writing
      rw [invariant.quiet (invariant.committer p commits)] at inOp
      simp at inOp
  · exact invariant.finished commit before

theorem Invariant.end_commit (erased : log.pc p = .erased) :
    Invariant inside (endCommit log p) := by
  have empty := invariant.erased p erased
  have sameOp (q : Nat) : ((endCommit log p).pc q).op = (log.pc q).op := by
    by_cases same : q = p
    · rw [same, erased, endCommit, set_pc_same]
      rfl
    · rw [endCommit, set_pc_other _ _ _ _ same]
      exact wake_op _
  have nobody (q : Nat) : ((endCommit log p).pc q).commits ≠ true := by
    by_cases same : q = p
    · rw [same, endCommit, set_pc_same]
      simp [Pc.commits]
    · rw [endCommit, set_pc_other _ _ _ _ same]
      intro also
      exact same (invariant.single q p ((wake_commits _).symm.trans also) commits)
  exact { invariant with
    members := fun q => by rw [sameOp q]; exact invariant.members q
    quiet := fun set => by contradiction
    committer := fun q set => absurd set (nobody q)
    single := fun q r left => absurd left (nobody q)
    idle := fun _ _ => empty
    erased := fun _ _ => empty
    asleep := fun q sleeping => (set_pc_cases sleeping).elim (by simp)
      fun woken => absurd woken (wake_not_asleep _)
    writers := fun write member => (invariant.writers write member).imp_right
      fun ⟨q, writing⟩ => ⟨q, by rw [sameOp q]; exact writing⟩ }

end Committing
end

/-- The processes inside an operation after an action. -/
def insideAfter (inside : Finset Nat) (after : Log) : Action → Finset Nat
  | .beginOp p => if (after.pc p).op.isSome then insert p inside else inside
  | .endOp p => inside.erase p
  | _ => inside

theorem Move.invariant (move : Move log action after) (invariant : Invariant inside log) :
    Invariant (insideAfter inside after action) after := by
  cases move with
  | sleep p fromOp fromCommits waits =>
    rw [insideAfter, set_pc_same]
    refine invariant.move fromOp.symm fromCommits.symm (fun _ => ?_) (by simp)
    by_contra awake
    rw [not_or, not_not, Bool.not_eq_true] at awake
    rcases waits with committing | full
    · rw [committing] at awake
      simp at awake
    · -- An idle log is empty and has room for an operation.
      rw [invariant.idle awake.1 awake.2, invariant.count, awake.2] at full
      simp [maxopblocks, logsize] at full
  | enter p fromOp free admitted =>
    rw [insideAfter, set_pc_same]
    exact invariant.enter free fromOp
  | write p op mine blockno place =>
    exact invariant.move (by rw [place]; rfl) (by rw [place]; rfl) (by simp) (by simp)
  | record p op mine blockno block place recorded =>
    have writer : (log.pc p).op = some op := by rw [place]; rfl
    refine (invariant.append writer ?_).move (by rw [writer]; rfl) (by rw [place]; rfl) (by simp)
      (by simp)
    exact recorded.imp_left And.right
  | last p op mine place alone =>
    have writer : (log.pc p).op = some op := by rw [place]; rfl
    have member := invariant.member writer
    have count := invariant.count
    have one : inside.card = 1 := by omega
    obtain ⟨q, single⟩ := Finset.card_eq_one.mp one
    rw [single, Finset.mem_singleton] at member
    subst member
    refine invariant.leave writer true _ (fun q different => .inl (update_of_ne different _ _))
      ?_ ?_ ?_ ⟨fun _ => single, fun _ => rfl⟩ (by simp)
    · rw [update_self]
      rfl
    · rw [update_self]
      rfl
    · rw [update_self]
      simp
  | leave p op mine place more =>
    have writer : (log.pc p).op = some op := by rw [place]; rfl
    have count := invariant.count
    have left := invariant.leave writer false (update (fun q => wake (log.pc q)) p .outside)
      (fun q different => .inr (update_of_ne different _ _)) (by rw [update_self]; rfl)
      (by rw [update_self]; rfl) (by simp) ?_ ?_
    · rw [← invariant.not_committing (invariant.member writer)] at left
      exact left
    · refine ⟨by simp, fun single => ?_⟩
      rw [single, Finset.card_singleton] at count
      omega
    · intro _ q
      by_cases same : q = p
      · rw [same, update_self]
        simp
      · rw [update_of_ne same]
        exact wake_not_asleep _
  | writeLog p commits place written =>
    have running : (log.pc p).commits = true := by rw [place]; rfl
    have wrote : Invariant inside { log with commits := commits } := by
      rcases written with rfl | rfl
      · exact invariant
      · exact invariant.commit running
    exact wrote.move (by rw [place]; rfl) running.symm (by simp) (by simp)
  | eraseLog p place =>
    exact invariant.erase.move (by rw [place]; rfl) (by rw [place]; rfl) (by simp) (fun _ => rfl)
  | endCommit p place => exact invariant.end_commit (by rw [place]; rfl) place
  | kill p place =>
    exact invariant.move (by rw [place]; rfl) (by rw [place]; rfl) (by simp) (by simp)

theorem initlog_invariant (sb : Superblock) : Invariant ∅ (initlog sb) := by
  constructor <;> simp [initlog, Pc.op, Pc.commits]

end Steps

theorem Invariant.no_panic {inside : Finset Nat} {log : Log} (invariant : Invariant inside log)
    (action : Action) : outcome log action ≠ some (.error .logCommitting) ∧
    outcome log action ≠ some (.error .logWriteOutsideOfTrans) := by
  constructor
  · intro stops
    obtain ⟨p, active, ⟨⟨⟩, -⟩ | ⟨⟨⟩, -⟩ | ⟨-, set⟩ | ⟨⟨⟩⟩⟩ := outcome_error stops
    rw [invariant.not_committing ((invariant.members p).mpr active)] at set
    contradiction
  · intro stops
    obtain ⟨p, active, ⟨⟨⟩, -⟩ | ⟨-, none⟩ | ⟨⟨⟩, -⟩ | ⟨⟨⟩⟩⟩ := outcome_error stops
    have positive := Finset.card_pos.mpr ⟨p, (invariant.members p).mpr active⟩
    rw [invariant.count] at none
    omega

/-- Group commit: nobody is inside an operation while a commit runs, a commit holds blocks
of ended operations only, the log has no duplicates, the two panics cannot happen, and a
sleeper has somebody to wake it. -/
theorem group_commit_protocol (sb : Superblock) (log : Log)
    (reached : Reaches step (fun _ _ => True) (initlog sb) log) :
    (log.committing = true → log.outstanding = 0) ∧ (∀ commit ∈ log.commits, commit.Finished) ∧
      (∀ action, outcome log action ≠ some (.error .logCommitting) ∧
        outcome log action ≠ some (.error .logWriteOutsideOfTrans)) ∧ log.block.Nodup ∧
      ((∃ p, log.pc p = .asleep) → log.committing = true ∨ 1 ≤ log.outstanding) := by
  obtain ⟨inside, invariant⟩ : ∃ inside, Invariant inside log := by
    refine reaches_invariant (fun log => ∃ inside, Invariant inside log)
      ⟨∅, initlog_invariant sb⟩ ?_ reached
    rintro before action after ⟨inside, invariant⟩ - taken
    exact ⟨_, (step_move taken).invariant invariant⟩
  refine ⟨?_, invariant.finished, invariant.no_panic, invariant.nodup, ?_⟩
  · intro committing
    rw [invariant.count, invariant.quiet committing]
    rfl
  · rintro ⟨p, sleeping⟩
    rcases invariant.asleep p sleeping with committing | active
    · exact .inl committing
    · right
      have positive := Finset.card_pos.mpr (Finset.nonempty_iff_ne_empty.mpr active)
      rw [invariant.count]
      omega

/-- Two operations share a commit while a third process waits for it. -/
theorem waiter_during_shared_commit : ∃ log, run step (initlog (mkfsSuperblock blockgroups))
        [.beginOp 0, .beginOp 1, .logWrite 0 40, .logWrite 1 40, .record 0, .record 1, .endOp 0,
          .endOp 1, .beginOp 2, .writeLog 1] = some log ∧
      log.pc 2 = .asleep ∧ log.commits.map Commit.blocks = [[40]] ∧ log.outstanding = 0 ∧
      (log.committing = true ∨ 1 ≤ log.outstanding) ∧ ∀ commit ∈ log.commits, commit.Finished := by
  obtain ⟨log, ran, shape⟩ := exists_of_run step (initlog (mkfsSuperblock blockgroups))
    [.beginOp 0, .beginOp 1, .logWrite 0 40, .logWrite 1 40, .record 0, .record 1, .endOp 0,
      .endOp 1, .beginOp 2, .writeLog 1]
    (fun log => decide (log.pc 2 = .asleep ∧ log.commits.map Commit.blocks = [[40]] ∧
      log.outstanding = 0)) (by decide)
  obtain ⟨sleeping, blocks, none⟩ := of_decide_eq_true shape
  have protocol := group_commit_protocol (mkfsSuperblock blockgroups) log
    (reaches_of_run (all_guarded_trivial _ _) ran)
  exact ⟨log, ran, sleeping, blocks, none, protocol.2.2.2.2 ⟨2, sleeping⟩, protocol.2.1⟩

end Xv6Hacks.LogProtocol
