import Xv6Hacks.BlockGroupLayout
import Xv6Hacks.GuardedRuns
import Xv6Hacks.LinkedLists

/-!
# The disk driver

`ide.c` over a disk that works on one command at a time, and `memide.c`, which keeps the
blocks in memory. Each stretch of `ide.c` under `idelock` is one step; the disk finishes
its command in a step of its own, and the interrupt it raises is taken in another. A
buffer that nobody is reading or writing may be changed in any way by its holder.
-/

namespace Xv6Hacks.IdeDriver

open Function GuardedRuns LinkedLists
open BlockGroupLayout (bsize fssize blockgroups)

abbrev Block := Fin bsize → UInt8

/-- `struct buf` without its links. -/
structure Buf where
  busy : Bool
  valid : Bool
  dirty : Bool
  dev : Nat
  blockno : Nat
  data : Block

/-- The panics of both drivers, and a walk along the queue that has no end. -/
inductive Stop where
  | notBusy
  | nothingToDo
  | disk1NotPresent
  | idestart
  | incorrectBlockno
  | notForDisk1
  | outOfRange
  | endless
  deriving DecidableEq, Repr

/-- `(flags & (B_VALID|B_DIRTY)) == B_VALID`. -/
def Buf.synced (buf : Buf) : Prop := buf.valid = true ∧ buf.dirty = false

instance (buf : Buf) : Decidable buf.synced := inferInstanceAs (Decidable (_ ∧ _))

inductive Command where
  | read
  | write
  deriving DecidableEq, Repr

/-- The registers at `0x1f2` to `0x1f6`, the sector buffer behind the data port, the
command in progress and the interrupts that have been raised and not taken. -/
structure Device where
  count : BitVec 8
  low : BitVec 8
  mid : BitVec 8
  high : BitVec 8
  select : BitVec 8
  data : Block
  command : Option Command
  error : Bool
  irq : Nat
  disks : Nat → Nat → Block

def Device.sector (device : Device) : Nat :=
  device.low.toNat + 2 ^ 8 * device.mid.toNat + 2 ^ 16 * device.high.toNat +
    2 ^ 24 * (device.select.toNat % 16)

def Device.drive (device : Device) : Nat := device.select.toNat / 16 % 2

def Device.finish (device : Device) (error : Bool) : Device :=
  match device.command with
  | none => device
  | some command =>
    let ended := { device with command := none, error := error, irq := device.irq + 1 }
    if error then ended
    else
      match command with
      | .read => { ended with data := device.disks device.drive device.sector }
      | .write =>
        let written := update (device.disks device.drive) device.sector device.data
        { ended with disks := update device.disks device.drive written }

/-- `idewait` spins until the disk is ready, which is when its command has ended. -/
def idewait (device : Device) : Device := device.finish false

def sectorSize : Nat := 512

/-- The part of `idestart` that talks to the disk. -/
def sendCommand (device : Device) (buf : Buf) : Device :=
  let sector := buf.blockno * (bsize / sectorSize)
  let ready := idewait device
  let addressed := { ready with
    count := BitVec.ofNat 8 (bsize / sectorSize)
    low := BitVec.ofNat 8 (sector &&& 0xff)
    mid := BitVec.ofNat 8 ((sector >>> 8) &&& 0xff)
    high := BitVec.ofNat 8 ((sector >>> 16) &&& 0xff)
    select := BitVec.ofNat 8 (0xe0 ||| ((buf.dev &&& 1) <<< 4) ||| ((sector >>> 24) &&& 0x0f)) }
  if buf.dirty then { addressed with command := some .write, data := buf.data }
  else { addressed with command := some .read }

inductive Caller where
  | asleep
  | awake
  deriving DecidableEq, Repr

/-- What happened to a buffer: its holder changed it, or a request for it was served. -/
inductive Event (B : Type) where
  | change (b : B) (buf : Buf)
  | request (b : B)

inductive Action (B : Type) where
  /-- `iderw` is called. -/
  | call (b : B)
  /-- The caller of `iderw` runs again. -/
  | resume (b : B)
  /-- Somebody else's `wakeup` or `kill`. -/
  | wakeup (b : B)
  /-- The disk ends its command. -/
  | complete (error : Bool)
  /-- The interrupt is taken. -/
  | ideintr
  /-- The holder of a buffer changes it. -/
  | change (b : B) (buf : Buf)

variable {B : Type}

structure State (B : Type) where
  buf : B → Buf
  /-- `idequeue` and the `qnext` links. -/
  idequeue : Chain B
  device : Device
  havedisk1 : Bool
  call : B → Option Caller
  /-- The requests in the order of their arrival. -/
  arrived : List B
  history : List (Event B)
  returned : List Buf
  stopped : Option (Action B × Stop)

variable [DecidableEq B]

def idestart (s : State B) : Option B → Except Stop (State B)
  | none => .error .idestart
  | some b =>
    if fssize blockgroups ≤ (s.buf b).blockno then .error .incorrectBlockno
    else if 7 < bsize / sectorSize then .error .idestart
    else .ok { s with device := sendCommand s.device (s.buf b) }

/-- The loop at the end of `iderw`. -/
def awaitSync (s : State B) (b : B) : State B :=
  if (s.buf b).synced then
    { s with call := update s.call b none, returned := s.buf b :: s.returned }
  else { s with call := update s.call b (some .asleep) }

def wake (s : State B) (b : B) : State B :=
  if s.call b = some .asleep then { s with call := update s.call b (some .awake) } else s

/-- `insl` into the buffer at the head of the queue, unless it was written or the disk
reports an error. -/
def readData (s : State B) (b : B) : State B :=
  if (s.buf b).dirty then s
  else
    let ready := { s with device := idewait s.device }
    if ready.device.error then ready
    else { ready with buf := update s.buf b { s.buf b with data := ready.device.data } }

def unhook (s : State B) (b : B) : State B :=
  { s with
    idequeue := { s.idequeue with head := s.idequeue.next b }
    history := s.history ++ [.request b] }

def markSynced (s : State B) (b : B) : State B :=
  { s with buf := update s.buf b { s.buf b with valid := true, dirty := false } }

def ideintr (s : State B) : Except Stop (State B) :=
  match s.idequeue.head with
  | none => .ok s
  | some b =>
    let woken := wake (markSynced (readData (unhook s b) b) b) b
    match woken.idequeue.head with
    | none => .ok woken
    | some next => idestart woken (some next)

def enqueued (s : State B) (idequeue : Chain B) (b : B) : State B :=
  { s with idequeue := idequeue, arrived := s.arrived ++ [b] }

def iderw [Fintype B] (s : State B) (b : B) : Except Stop (State B) :=
  if (s.buf b).busy = false then .error .notBusy
  else if (s.buf b).synced then .error .nothingToDo
  else if (s.buf b).dev ≠ 0 ∧ s.havedisk1 = false then .error .disk1NotPresent
  else
    match s.idequeue.append (Fintype.card B + 1) b with
    | none => .error .endless
    | some idequeue => do
      let queued := enqueued s idequeue b
      let started ← if idequeue.head = some b then idestart queued (some b) else .ok queued
      .ok (awaitSync started b)

def orStop (s : State B) (action : Action B) (result : Except Stop (State B)) : State B :=
  match result with
  | .ok next => next
  | .error stop => { s with stopped := some (action, stop) }

def step [Fintype B] (s : State B) (action : Action B) : Option (State B) :=
  if s.stopped.isSome then none
  else
    match action with
    | .call b => if s.call b = none then some (orStop s action (iderw s b)) else none
    | .resume b => if s.call b = some .awake then some (awaitSync s b) else none
    | .wakeup b => some (wake s b)
    | .complete error =>
      if s.device.command.isSome then some { s with device := s.device.finish error } else none
    | .ideintr =>
      if 0 < s.device.irq then
        some (orStop s action
          (ideintr { s with device := { s.device with irq := s.device.irq - 1 } }))
      else none
    | .change b buf =>
      if s.call b = none then
        some { s with buf := update s.buf b buf, history := s.history ++ [.change b buf] }
      else none

/-- The disk raises an interrupt for each command and reports no error; `iderw` is called
for busy buffers of blocks of the file system, which is on disk 1. -/
def Fair (s : State B) : Action B → Prop
  | .call b => (s.buf b).busy = true ∧ (s.buf b).dev = 1 ∧ (s.buf b).blockno < fssize blockgroups
  | .complete error => error = false
  | _ => True

instance (s : State B) (action : Action B) : Decidable (Fair s action) :=
  match action with
  | .call _ => inferInstanceAs (Decidable (_ ∧ _ ∧ _))
  | .complete _ => inferInstanceAs (Decidable (_ = _))
  | .resume _ | .wakeup _ | .ideintr | .change _ _ => isTrue trivial

def start (disks : Nat → Nat → Block) (buf : B → Buf) : State B where
  buf := buf
  idequeue := ⟨none, fun _ => none⟩
  device := { count := 0, low := 0, mid := 0, high := 0, select := 0, data := fun _ => 0,
              command := none, error := false, irq := 0, disks := disks }
  havedisk1 := true
  call := fun _ => none
  arrived := []
  history := []
  returned := []
  stopped := none

structure Mem (B : Type) where
  memdisk : Nat → Block
  buf : B → Buf

/-- The image in memory is the one `mkfs` has written, of `FSSIZE` blocks. -/
def disksize : Nat := fssize blockgroups

def memIderw (m : Mem B) (b : B) : Except Stop (Mem B) :=
  if (m.buf b).busy = false then .error .notBusy
  else if (m.buf b).synced then .error .nothingToDo
  else if (m.buf b).dev ≠ 1 then .error .notForDisk1
  else if disksize ≤ (m.buf b).blockno then .error .outOfRange
  else if (m.buf b).dirty then
    let written := { m.buf b with dirty := false, valid := true }
    .ok { memdisk := update m.memdisk (m.buf b).blockno (m.buf b).data
          buf := update m.buf b written }
  else
    let read := { m.buf b with data := m.memdisk (m.buf b).blockno, valid := true }
    .ok { m with buf := update m.buf b read }

def memStep (m : Mem B) : Event B → Except Stop (Mem B)
  | .change b buf => .ok { m with buf := update m.buf b buf }
  | .request b => memIderw m b

/-- The history with the driver in memory. -/
def replay (m : Mem B) (history : List (Event B)) : Except Stop (Mem B) :=
  history.foldlM memStep m

def requests (history : List (Event B)) : List B :=
  history.filterMap fun event =>
    match event with
    | .change _ _ => none
    | .request b => some b

theorem fssize_value : fssize blockgroups = 101657 := by decide

section
variable (device : Device) (buf : Buf) (disk1 : buf.dev = 1)
include device buf disk1

theorem send_select
    (small : buf.blockno < fssize blockgroups) : (sendCommand device buf).select = 0xf0#8 := by
  rw [fssize_value] at small
  have one : bsize / sectorSize = 1 := by decide
  have top : buf.blockno >>> 24 &&& 15 = 0 := by
    rw [Nat.shiftRight_eq_div_pow, Nat.div_eq_of_lt (by omega)]
    rfl
  unfold sendCommand
  simp only [one, mul_one, top, disk1]
  split
  all_goals
    dsimp only
    decide

theorem send_drive
    (small : buf.blockno < fssize blockgroups) : (sendCommand device buf).drive = 1 := by
  unfold Device.drive
  rw [send_select device buf disk1 small]
  decide

theorem send_sector
    (small : buf.blockno < fssize blockgroups) : (sendCommand device buf).sector = buf.blockno := by
  have one : bsize / sectorSize = 1 := by decide
  have byte (value : Nat) : value &&& 0xff = value % 2 ^ 8 := Nat.and_two_pow_sub_one_eq_mod value 8
  have select : (0xf0#8).toNat % 16 = 0 := by decide
  have registers : (sendCommand device buf).low.toNat = buf.blockno % 2 ^ 8 % 2 ^ 8 ∧
      (sendCommand device buf).mid.toNat = buf.blockno / 2 ^ 8 % 2 ^ 8 % 2 ^ 8 ∧
      (sendCommand device buf).high.toNat = buf.blockno / 2 ^ 16 % 2 ^ 8 % 2 ^ 8 := by
    unfold sendCommand
    simp only [one, mul_one, byte, Nat.shiftRight_eq_div_pow]
    split
    all_goals exact ⟨BitVec.toNat_ofNat _ _, BitVec.toNat_ofNat _ _, BitVec.toNat_ofNat _ _⟩
  obtain ⟨low, mid, high⟩ := registers
  unfold Device.sector
  rw [send_select device buf disk1 small, low, mid, high, select]
  rw [fssize_value] at small
  omega

end

structure InProgress (device : Device) (buf : Buf) : Prop where
  command : device.command = some (if buf.dirty then .write else .read)
  irq : device.irq = 0
  sector : device.sector = buf.blockno
  drive : device.drive = 1
  data : buf.dirty = true → device.data = buf.data

/-- The disk has ended the request for `buf`, and its interrupt has not been taken. -/
structure Ended (device : Device) (buf : Buf) (before : Nat → Block) : Prop where
  command : device.command = none
  irq : device.irq = 1
  error : device.error = false
  written : device.disks 1 =
    if buf.dirty then update before buf.blockno buf.data else before
  data : buf.dirty = false → device.data = before buf.blockno

variable {device : Device}

theorem send_in_progress {buf : Buf} (idle : device.command = none) (noIrq : device.irq = 0)
    (disk1 : buf.dev = 1) (small : buf.blockno < fssize blockgroups) :
    InProgress (sendCommand device buf) buf ∧ (sendCommand device buf).disks = device.disks := by
  have ready : idewait device = device := by
    unfold idewait Device.finish
    rw [idle]
  have sector := send_sector device buf disk1 small
  have drive := send_drive device buf disk1 small
  refine ⟨⟨?_, ?_, sector, drive, ?_⟩, ?_⟩
  all_goals
    unfold sendCommand
    simp only [ready]
  · split <;> rfl
  · split <;> exact noIrq
  · intro dirty
    simp only [dirty, ↓reduceIte]
  · split <;> rfl

theorem finish_ended {buf : Buf} (busy : InProgress device buf) :
    Ended (device.finish false) buf (device.disks 1) := by
  have irq := busy.irq
  by_cases dirty : buf.dirty = true
  · have command : device.command = some .write := by
      rw [busy.command, if_pos dirty]
    have data := busy.data dirty
    unfold Device.finish
    rw [command]
    refine ⟨rfl, by simp [irq], rfl, ?_, ?_⟩
    · simp only [busy.drive, busy.sector, data, dirty, ↓reduceIte, Bool.false_eq_true, update_self]
    · intro clean
      rw [clean] at dirty
      cases dirty
  · have command : device.command = some .read := by
      rw [busy.command, if_neg dirty]
    unfold Device.finish
    rw [command]
    refine ⟨rfl, by simp [irq], rfl, ?_, ?_⟩
    · simp only [dirty, Bool.false_eq_true, ↓reduceIte]
    · intro _
      simp only [Bool.false_eq_true, ↓reduceIte, busy.drive, busy.sector]

/-- What the disk does for the buffer at the head of the queue, if there is one; `disk` is
the contents without that request. -/
def Active (device : Device) (disk : Nat → Block) : Option Buf → Prop
  | none => device.command = none ∧ device.irq = 0 ∧ device.disks 1 = disk
  | some buf => (InProgress device buf ∧ device.disks 1 = disk) ∨ Ended device buf disk

def Eligible (buf : Buf) : Prop :=
  buf.busy = true ∧ buf.dev = 1 ∧ buf.blockno < fssize blockgroups

/-- `queue` is what `idequeue` holds, and `mem` is where the driver in memory is after the
same history. -/
structure Refinement (first : Mem B) (s : State B) (queue : List B) (mem : Mem B) : Prop where
  holds : Holds s.idequeue queue
  once : queue.Nodup
  order : s.arrived = requests s.history ++ queue
  pending : ∀ b, b ∈ queue ↔ s.call b ≠ none ∧ ¬ (s.buf b).synced
  eligible : ∀ b ∈ queue, Eligible (s.buf b)
  active : Active s.device mem.memdisk (queue.head?.map s.buf)
  replayed : replay first s.history = .ok mem
  bufs : s.buf = mem.buf
  returned : ∀ buf ∈ s.returned, buf.synced
  asleep : ∀ b, s.call b = some .asleep → ¬ (s.buf b).synced
  disk1 : s.havedisk1 = true
  stopped : ∀ action stop, s.stopped = some (action, stop) →
    ∃ b, action = .call b ∧ memIderw mem b = .error stop

omit [DecidableEq B] in
theorem requests_append_change (history : List (Event B)) (b : B) (buf : Buf) :
    requests (history ++ [.change b buf]) = requests history := by
  simp [requests]

omit [DecidableEq B] in
theorem requests_append_request (history : List (Event B)) (b : B) :
    requests (history ++ [.request b]) = requests history ++ [b] := by
  simp [requests]

theorem replay_append {first mem : Mem B} {history : List (Event B)} (event : Event B)
    (replayed : replay first history = .ok mem) :
    replay first (history ++ [event]) = memStep mem event := by
  unfold replay at replayed ⊢
  rw [List.foldlM_append, replayed]
  change (memStep mem event >>= fun next => pure next) = memStep mem event
  exact bind_pure _

def served (m : Mem B) (b : B) : Mem B where
  memdisk :=
    if (m.buf b).dirty then update m.memdisk (m.buf b).blockno (m.buf b).data
    else m.memdisk
  buf := update m.buf b { m.buf b with
    data := if (m.buf b).dirty then (m.buf b).data else m.memdisk (m.buf b).blockno
    valid := true
    dirty := false }

variable {b : B}

theorem mem_iderw_served {m : Mem B} (eligible : Eligible (m.buf b))
    (unsynced : ¬ (m.buf b).synced) : memIderw m b = .ok (served m b) := by
  obtain ⟨busy, disk1, small⟩ := eligible
  unfold memIderw
  rw [if_neg (by simp [busy]), if_neg unsynced, if_neg (by simp [disk1]),
    if_neg (by unfold disksize; omega)]
  unfold served
  by_cases dirty : (m.buf b).dirty = true
  · simp only [dirty, ↓reduceIte]
  · simp only [dirty, Bool.false_eq_true, ↓reduceIte]

section Steps
variable {first : Mem B} {s : State B} {queue : List B} {mem : Mem B}

theorem head_update {f : B → Buf} {buf : Buf} (outside : b ∉ queue) :
    queue.head?.map (update f b buf) = queue.head?.map f := by
  cases queue with
  | nil => rfl
  | cons item rest =>
    have other : item ≠ b := by
      intro same
      rw [same] at outside
      exact outside (.head _)
    rw [List.head?_cons, Option.map_some, Option.map_some, update_of_ne other]

namespace Refinement

section
variable (refines : Refinement first s queue mem)
include refines

theorem outside (free : s.call b = none) : b ∉ queue := by
  intro member
  exact ((refines.pending b).mp member).1 free

theorem change (buf : Buf) (free : s.call b = none) (running : s.stopped = none) : Refinement first
      { s with buf := update s.buf b buf, history := s.history ++ [.change b buf] }
      queue { mem with buf := update mem.buf b buf } := by
  have outside := refines.outside free
  have kept {c : B} (called : s.call c ≠ none) : update s.buf b buf c = s.buf c := by
    apply update_of_ne
    intro same
    rw [same] at called
    exact called free
  constructor
  case holds => exact refines.holds
  case once => exact refines.once
  case order =>
    dsimp only
    rw [requests_append_change]
    exact refines.order
  case pending =>
    intro c
    dsimp only
    rw [refines.pending c]
    constructor
    · intro both
      rw [kept both.1]
      exact both
    · intro both
      rw [kept both.1] at both
      exact both
  case eligible =>
    intro c member
    dsimp only
    rw [kept ((refines.pending c).mp member).1]
    exact refines.eligible c member
  case active =>
    dsimp only
    rw [head_update outside]
    exact refines.active
  case replayed => exact replay_append (.change b buf) refines.replayed
  case bufs =>
    dsimp only
    rw [refines.bufs]
  case returned => exact refines.returned
  case asleep =>
    intro c sleeps
    dsimp only
    have called : s.call c ≠ none := by
      rw [sleeps]
      exact Option.some_ne_none _
    rw [kept called]
    exact refines.asleep c sleeps
  case disk1 => exact refines.disk1
  case stopped =>
    intro action stop wrong
    cases running.symm.trans wrong

theorem move_caller (caller : Caller) (called : s.call b ≠ none)
    (sleeps : caller = .asleep → ¬ (s.buf b).synced) :
    Refinement first { s with call := update s.call b (some caller) } queue mem := by
  refine { refines with pending := ?_, asleep := ?_ }
  · intro c
    dsimp only
    rw [refines.pending c]
    by_cases here : c = b
    · rw [here, update_self]
      exact and_congr_left' ⟨fun _ => Option.some_ne_none _, fun _ => called⟩
    · rw [update_of_ne here]
  · intro c isAsleep
    dsimp only at isAsleep ⊢
    by_cases here : c = b
    · rw [here, update_self] at isAsleep
      rw [here]
      exact sleeps (Option.some.inj isAsleep)
    · rw [update_of_ne here] at isAsleep
      exact refines.asleep c isAsleep

theorem wake (b : B) : Refinement first (wake s b) queue mem := by
  unfold IdeDriver.wake
  split
  next sleeps =>
    refine refines.move_caller .awake ?_ Caller.noConfusion
    rw [sleeps]
    exact Option.some_ne_none _
  next => exact refines

theorem await (called : s.call b ≠ none) : Refinement first (awaitSync s b) queue mem := by
  unfold awaitSync
  split
  next synced =>
    refine { refines with pending := ?_, returned := ?_, asleep := ?_ }
    · intro c
      dsimp only
      rw [refines.pending c]
      by_cases here : c = b
      · rw [here, update_self]
        exact ⟨fun both => absurd synced both.2, fun both => absurd rfl both.1⟩
      · rw [update_of_ne here]
    · intro buf member
      rcases List.mem_cons.mp member with here | earlier
      · rw [here]
        exact synced
      · exact refines.returned buf earlier
    · intro c isAsleep
      dsimp only at isAsleep ⊢
      by_cases here : c = b
      · rw [here, update_self] at isAsleep
        cases isAsleep
      · rw [update_of_ne here] at isAsleep
        exact refines.asleep c isAsleep
  next unsynced => exact refines.move_caller .asleep called (fun _ => unsynced)

theorem complete (busy : s.device.command ≠ none) :
    Refinement first { s with device := s.device.finish false } queue mem := by
  refine { refines with active := ?_ }
  have active := refines.active
  dsimp only
  cases head : queue.head?.map s.buf with
  | none =>
    rw [head] at active
    exact absurd active.1 busy
  | some buf =>
    rw [head] at active
    rcases active with ⟨inProgress, disk⟩ | ended
    · rw [← disk]
      exact .inr (finish_ended inProgress)
    · exact absurd ended.command busy

theorem enqueue (free : s.call b = none) (unsynced : ¬ (s.buf b).synced)
    (eligible : Eligible (s.buf b)) {idequeue : Chain B} (holds : Holds idequeue (queue ++ [b]))
    (active : Active device mem.memdisk ((queue ++ [b]).head?.map s.buf)) : Refinement first
      { s with
        idequeue := idequeue, arrived := s.arrived ++ [b], device := device,
        call := update s.call b (some .asleep) }
      (queue ++ [b]) mem := by
  have outside := refines.outside free
  refine { refines with holds := holds, once := ?_, order := ?_, pending := ?_, eligible := ?_,
                        active := active, asleep := ?_ }
  · exact List.nodup_append.mpr ⟨refines.once, List.nodup_singleton b, by
      intro c member d isB same
      rw [List.mem_singleton.mp isB] at same
      rw [same] at member
      exact outside member⟩
  · dsimp only
    rw [refines.order, List.append_assoc]
  · intro c
    dsimp only
    rw [List.mem_append, List.mem_singleton]
    by_cases here : c = b
    · rw [here, update_self]
      exact ⟨fun _ => ⟨Option.some_ne_none _, unsynced⟩, fun _ => .inr rfl⟩
    · rw [update_of_ne here, ← refines.pending c]
      exact or_iff_left here
  · intro c member
    rcases List.mem_append.mp member with queued | new
    · exact refines.eligible c queued
    · rw [List.mem_singleton.mp new]
      exact eligible
  · intro c isAsleep
    dsimp only at isAsleep ⊢
    by_cases here : c = b
    · rw [here]
      exact unsynced
    · rw [update_of_ne here] at isAsleep
      exact refines.asleep c isAsleep

end

theorem serve {rest : List B} (refines : Refinement first s (b :: rest) mem)
    (running : s.stopped = none)
    (active : Active device (served mem b).memdisk (rest.head?.map (served mem b).buf)) :
    Refinement first
      { s with
        idequeue := { s.idequeue with head := s.idequeue.next b },
        history := s.history ++ [.request b], buf := (served mem b).buf, device := device,
        call := update s.call b (some .awake) }
      rest (served mem b) := by
  obtain ⟨notLater, restOnce⟩ := List.nodup_cons.mp refines.once
  have pending := (refines.pending b).mp (.head _)
  have kept {c : B} (other : c ≠ b) : (served mem b).buf c = s.buf c := by
    rw [refines.bufs]
    exact update_of_ne other _ _
  have isSynced : ((served mem b).buf b).synced := by
    unfold served
    dsimp only
    rw [update_self]
    exact ⟨rfl, rfl⟩
  have result : memIderw mem b = .ok (served mem b) := by
    apply mem_iderw_served
    · rw [← refines.bufs]
      exact refines.eligible b (.head _)
    · rw [← refines.bufs]
      exact pending.2
  constructor
  case holds => exact refines.holds.tail
  case once => exact restOnce
  case order =>
    dsimp only
    rw [requests_append_request, refines.order, List.append_assoc]
    rfl
  case pending =>
    intro c
    dsimp only
    by_cases here : c = b
    · rw [here]
      exact ⟨fun member => absurd member notLater, fun both => absurd isSynced both.2⟩
    · rw [update_of_ne here, kept here, ← refines.pending c, List.mem_cons]
      exact (or_iff_right here).symm
  case eligible =>
    intro c member
    have other : c ≠ b := by
      intro same
      rw [same] at member
      exact notLater member
    dsimp only
    rw [kept other]
    exact refines.eligible c (.tail b member)
  case active => exact active
  case replayed => exact (replay_append (.request b) refines.replayed).trans result
  case bufs => rfl
  case returned => exact refines.returned
  case asleep =>
    intro c isAsleep
    dsimp only at isAsleep ⊢
    by_cases here : c = b
    · rw [here, update_self] at isAsleep
      cases isAsleep
    · rw [update_of_ne here] at isAsleep
      rw [kept here]
      exact refines.asleep c isAsleep
  case disk1 => exact refines.disk1
  case stopped =>
    intro action stop wrong
    cases running.symm.trans wrong

theorem await_unsynced (s : State B) (unsynced : ¬ (s.buf b).synced) :
    awaitSync s b = { s with call := update s.call b (some .asleep) } := by
  unfold awaitSync
  rw [if_neg unsynced]

omit [DecidableEq B] in
theorem idestart_ok (s : State B) (eligible : Eligible (s.buf b)) :
    idestart s (some b) = .ok { s with device := sendCommand s.device (s.buf b) } := by
  have small : ¬ fssize blockgroups ≤ (s.buf b).blockno := Nat.not_le_of_lt eligible.2.2
  simp only [idestart]
  rw [if_neg small, if_neg (by decide)]

theorem call [Fintype B] (refines : Refinement first s queue mem) (free : s.call b = none)
    (eligible : Eligible (s.buf b)) :
    ∃ queue', Refinement first (orStop s (.call b) (iderw s b)) queue' mem := by
  have busy : ¬ (s.buf b).busy = false := by simp [eligible.1]
  unfold iderw
  rw [if_neg busy]
  by_cases synced : (s.buf b).synced
  · -- The driver in memory panics as well.
    rw [if_pos synced]
    refine ⟨queue, { refines with stopped := ?_ }⟩
    intro action stop isStop
    cases isStop
    refine ⟨b, rfl, ?_⟩
    unfold memIderw
    rw [← refines.bufs, if_neg busy, if_pos synced]
  · rw [if_neg synced, if_neg (by simp [refines.disk1])]
    have outside := refines.outside free
    have enough : queue.length < Fintype.card B + 1 := Nat.lt_succ_of_le refines.once.length_le_card
    obtain ⟨idequeue, appended, holds⟩ := append_holds refines.holds refines.once outside enough
    rw [appended]
    refine ⟨queue ++ [b], ?_⟩
    dsimp only
    have active := refines.active
    by_cases empty : queue = []
    · have head : idequeue.head = some b := by
        rw [holds.head, empty]
        rfl
      rw [empty] at active
      obtain ⟨idle, noIrq, disk⟩ := active
      rw [if_pos head, idestart_ok (enqueued s idequeue b) eligible]
      dsimp only [orStop, Except.bind, bind]
      rw [await_unsynced _ (by exact synced)]
      obtain ⟨inProgress, disks⟩ := send_in_progress idle noIrq eligible.2.1 eligible.2.2
      apply refines.enqueue free synced eligible holds
      rw [empty]
      left
      refine ⟨inProgress, ?_⟩
      rw [← disk, ← disks]
      rfl
    · obtain ⟨first', rest, shape⟩ := List.exists_cons_of_ne_nil empty
      have notHead : ¬ idequeue.head = some b := by
        rw [holds.head, shape]
        intro same
        rw [shape, ← Option.some.inj same] at outside
        exact outside (.head _)
      rw [if_neg notHead]
      dsimp only [orStop, Except.bind, bind]
      rw [await_unsynced (enqueued s idequeue b) synced]
      apply refines.enqueue free synced eligible holds
      rw [shape] at active ⊢
      exact active

theorem wake_called {s : State B} (called : s.call b ≠ none) :
    IdeDriver.wake s b = { s with call := update s.call b (some .awake) } := by
  unfold IdeDriver.wake
  split
  next => rfl
  next awake =>
    have isAwake : s.call b = some .awake := by
      cases state : s.call b with
      | none => exact absurd state called
      | some caller =>
        cases caller with
        | asleep => exact absurd state awake
        | awake => rfl
    rw [← isAwake, update_eq_self]

theorem read_data_ready (s : State B) (b : B) (ready : s.device.command = none)
    (noError : s.device.error = false) :
    readData s b = { s with buf := update s.buf b { s.buf b with
      data := if (s.buf b).dirty then (s.buf b).data else s.device.data } } := by
  have waited : idewait s.device = s.device := by
    unfold idewait Device.finish
    rw [ready]
  unfold readData
  split
  next =>
    change s = { s with buf := update s.buf b (s.buf b) }
    rw [update_eq_self]
  next =>
    dsimp only
    rw [waited, if_neg (by simp [noError])]

def afterServe (s : State B) (mem : Mem B) (b : B) : State B :=
  { s with
    idequeue := { s.idequeue with head := s.idequeue.next b },
    history := s.history ++ [.request b], buf := (served mem b).buf,
    device := { s.device with irq := 0 }, call := update s.call b (some .awake) }

theorem intr_serves {rest : List B} (refines : Refinement first s (b :: rest) mem)
    (ended : Ended s.device (s.buf b) mem.memdisk) :
    ideintr { s with device := { s.device with irq := s.device.irq - 1 } } =
      match rest.head? with
      | none => .ok (afterServe s mem b)
      | some next => idestart (afterServe s mem b) (some next) := by
  have called := ((refines.pending b).mp (.head _)).1
  have head : s.idequeue.head = some b := refines.holds.head
  have follows : s.idequeue.next b = rest.head? := refines.holds.tail.head
  have taken : (if (s.buf b).dirty then (s.buf b).data else s.device.data) =
      if (s.buf b).dirty then (s.buf b).data else mem.memdisk (s.buf b).blockno := by
    split
    next => rfl
    next clean =>
      simp only [Bool.not_eq_true] at clean
      exact ended.data clean
  have read := read_data_ready (unhook { s with device := { s.device with irq := s.device.irq - 1 } } b)
    b ended.command ended.error
  have marked : markSynced (readData (unhook { s with
        device := { s.device with irq := s.device.irq - 1 } } b) b) b =
      { afterServe s mem b with call := s.call } := by
    rw [read]
    unfold markSynced afterServe unhook served
    simp only [update_self, update_idem, ended.irq, taken, ← refines.bufs]
  unfold ideintr
  dsimp only
  rw [head]
  dsimp only
  rw [marked, wake_called (by exact called)]
  change (match s.idequeue.next b with | none => _ | some next => _) = _
  rw [follows]
  rfl

theorem intr (refines : Refinement first s queue mem) (running : s.stopped = none)
    (raised : 0 < s.device.irq) : ∃ queue' mem', Refinement first (orStop s .ideintr
      (ideintr { s with device := { s.device with irq := s.device.irq - 1 } })) queue' mem' := by
  have active := refines.active
  cases queue with
  | nil =>
    have noIrq : s.device.irq = 0 := active.2.1
    omega
  | cons b rest =>
    rcases active with ⟨inProgress, -⟩ | ended
    · have noIrq := inProgress.irq
      omega
    · refine ⟨rest, served mem b, ?_⟩
      have written : s.device.disks 1 = (served mem b).memdisk := by
        rw [ended.written]
        unfold served
        rw [refines.bufs]
      rw [refines.intr_serves ended]
      cases rest with
      | nil => exact refines.serve running ⟨ended.command, rfl, written⟩
      | cons next later =>
        have notHead : next ≠ b := by
          intro same
          have once := (List.nodup_cons.mp refines.once).1
          rw [same] at once
          exact once (.head _)
        have eligible : Eligible ((afterServe s mem b).buf next) := by
          have before := refines.eligible next (.tail b (.head _))
          rw [refines.bufs] at before
          change Eligible (update mem.buf b _ next)
          rw [update_of_ne notHead]
          exact before
        obtain ⟨inProgress, disks⟩ := @send_in_progress { s.device with irq := 0 }
          ((afterServe s mem b).buf next) ended.command rfl eligible.2.1 eligible.2.2
        dsimp only [List.head?_cons]
        rw [idestart_ok _ eligible]
        apply refines.serve running
        left
        refine ⟨inProgress, ?_⟩
        rw [← written]
        exact congrFun disks 1

end Refinement

theorem refinement_step [Fintype B] {action : Action B} {next : State B}
    (refines : Refinement first s queue mem) (fair : Fair s action)
    (stepped : step s action = some next) : ∃ queue' mem', Refinement first next queue' mem' := by
  unfold step at stepped
  split at stepped
  next => cases stepped
  next notStopped =>
    have running : s.stopped = none := by
      simpa using notStopped
    cases action with
    | call b =>
      dsimp only at stepped
      split at stepped
      next free =>
        cases stepped
        obtain ⟨queue', called⟩ := refines.call free fair
        exact ⟨queue', mem, called⟩
      next => cases stepped
    | resume b =>
      dsimp only at stepped
      split at stepped
      next awake =>
        cases stepped
        have called : s.call b ≠ none := by
          rw [awake]
          exact Option.some_ne_none _
        exact ⟨queue, mem, refines.await called⟩
      next => cases stepped
    | wakeup b =>
      cases stepped
      exact ⟨queue, mem, refines.wake b⟩
    | complete error =>
      have noError : error = false := fair
      subst noError
      dsimp only at stepped
      split at stepped
      next busy =>
        cases stepped
        exact ⟨queue, mem, refines.complete (Option.isSome_iff_ne_none.mp busy)⟩
      next => cases stepped
    | ideintr =>
      dsimp only at stepped
      split at stepped
      next raised =>
        cases stepped
        exact refines.intr running raised
      next => cases stepped
    | change b buf =>
      dsimp only at stepped
      split at stepped
      next free =>
        cases stepped
        exact ⟨queue, _, refines.change buf free running⟩
      next => cases stepped

end Steps

theorem refinement_start (disks : Nat → Nat → Block) (buf : B → Buf) :
    Refinement ⟨disks 1, buf⟩ (start disks buf) [] ⟨disks 1, buf⟩ where
  holds := rfl
  once := List.nodup_nil
  order := rfl
  pending := by
    intro b
    exact ⟨fun wrong => absurd wrong List.not_mem_nil, fun both => absurd rfl both.1⟩
  eligible := fun b wrong => absurd wrong List.not_mem_nil
  active := ⟨rfl, rfl, rfl⟩
  replayed := rfl
  bufs := rfl
  returned := fun buf wrong => absurd wrong List.not_mem_nil
  asleep := by
    intro b wrong
    cases wrong
  disk1 := rfl
  stopped := by
    intro action stop wrong
    cases wrong

/-- The driver with interrupts refines the driver in memory. -/
theorem ide_refines_memide [Fintype B] (disks : Nat → Nat → Block) (buf : B → Buf) {s : State B}
    (reached : Reaches step Fair (start disks buf) s) :
    ∃ queue mem, Refinement ⟨disks 1, buf⟩ s queue mem := by
  apply reaches_invariant (fun s => ∃ queue mem, Refinement ⟨disks 1, buf⟩ s queue mem) _ _ reached
  · exact ⟨[], _, refinement_start disks buf⟩
  · intro before action after invariant fair stepped
    obtain ⟨queue, mem, refines⟩ := invariant
    exact refinement_step refines fair stepped

local instance twoBuffersNeZero : NeZero 2 := ⟨by decide⟩

/-- One buffer is written to block 5 while another one waits to read it. -/
def writeAndRead : List (Action (Fin 2)) :=
  [.call 0, .call 1, .complete false, .ideintr, .complete false, .ideintr, .resume 1, .resume 0]

def twoBuffers (b : Fin 2) : Buf :=
  { busy := true, valid := false, dirty := b = 0, dev := 1, blockno := 5,
    data := fun _ => if b = 0 then 7 else 0 }

theorem write_and_read_refines :
    ∃ s : State (Fin 2), Reaches step Fair (start (fun _ _ _ => 0) twoBuffers) s ∧
      (s.returned.length = 2 ∧ (s.buf 1).data ⟨0, by decide⟩ = 7) ∧
      ∃ queue mem, Refinement ⟨fun _ _ => 0, twoBuffers⟩ s queue mem := by
  obtain ⟨s, reached, summary⟩ := exists_of_checked_run step
    (start (fun _ _ _ => 0) twoBuffers) Fair writeAndRead
    (fun s => s.returned.length = 2 ∧ (s.buf 1).data ⟨0, by decide⟩ = 7) (by decide +kernel)
  simp only [decide_eq_true_eq] at summary
  exact ⟨s, reached, summary, ide_refines_memide (fun _ _ _ => 0) twoBuffers reached⟩

end Xv6Hacks.IdeDriver
