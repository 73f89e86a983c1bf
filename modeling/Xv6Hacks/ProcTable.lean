import Mathlib.Tactic

/-!
# The process table and its ticket counter

A transcription of the part of `proc.c` that works on `ptable` (default build,
`lottery` undefined): `allocproc`, `userinit`, `fork`, `exit`, `wait`, `sleep`,
`wakeup`, `kill`, `yield`, `updateNice` and the scan of `scheduler_lottery`.
Each stretch under `ptable.lock` is one transition. Whether `kalloc` supplies a
kernel stack and whether `cowuvm`/`copyuvm` returns a page directory are inputs
of `fork`; open files, the address space and the kernel stack itself are not
part of this state.
-/

namespace Xv6Hacks.ProcTable

abbrev nproc : Nat := 64

abbrev Slot := Fin nproc

instance : NeZero nproc := ⟨by decide⟩

inductive Procstate where
  | unused
  | embryo
  | sleeping
  | runnable
  | running
  | zombie
  deriving DecidableEq, Repr

/-- A sleep channel is a pointer; only those to a `struct proc` are told apart
from the rest of the kernel's addresses. -/
inductive Chan where
  | proc (slot : Slot)
  | address (value : Nat)
  deriving DecidableEq, Repr

structure Proc where
  state : Procstate
  pid : Int
  parent : Option Slot
  chan : Option Chan
  killed : Bool
  nice : Int
  tickets : Nat
  deriving DecidableEq, Repr

structure Ptable where
  proc : Slot → Proc
  totalTickets : Int
  nextpid : Int
  initproc : Slot

/-- `int` arithmetic wraps at 32 bits. -/
def wrapInt (value : Int) : Int := Int.bmod value (2 ^ 32)

theorem wrap_int_of_bounds (value : Int) (lower : 0 ≤ value) (upper : value < 2 ^ 31) :
    wrapInt value = value := by
  unfold wrapInt Int.bmod
  have same : value % ((2 ^ 32 : Nat) : Int) = value :=
    Int.emod_eq_of_lt lower (by norm_num; omega)
  rw [same, if_pos]
  norm_num
  omega

def setProc (t : Ptable) (slot : Slot) (p : Proc) : Ptable :=
  { t with proc := Function.update t.proc slot p }

@[simp] theorem set_proc_same (t : Ptable) (slot : Slot) (p : Proc) :
    (setProc t slot p).proc slot = p := by
  simp [setProc]

theorem set_proc_other (t : Ptable) (slot other : Slot) (p : Proc) (different : other ≠ slot) :
    (setProc t slot p).proc other = t.proc other := by
  simp [setProc, different]

@[simp] theorem set_proc_total (t : Ptable) (slot : Slot) (p : Proc) :
    (setProc t slot p).totalTickets = t.totalTickets := rfl

/-- The number of tickets a nice value is worth. A value out of range counts as
the default and is reset to it in the process it was read from. -/
def getTicketAmount (proc : Proc) : Nat × Proc :=
  if proc.nice > 139 then (3, { proc with nice := 120 })
  else if proc.nice = 139 then (1, proc)
  else if proc.nice > 129 then (2, proc)
  else if proc.nice > 119 then (3, proc)
  else if proc.nice > 109 then (4, proc)
  else if proc.nice > 100 then (5, proc)
  else if proc.nice = 100 then (6, proc)
  else (3, { proc with nice := 120 })

theorem ticket_amount_bounds (p : Proc) :
    1 ≤ (getTicketAmount p).1 ∧ (getTicketAmount p).1 ≤ 6 := by
  unfold getTicketAmount
  split_ifs <;> simp

theorem ticket_amount_of_nice (p q : Proc) (same : p.nice = q.nice) :
    (getTicketAmount p).1 = (getTicketAmount q).1 := by
  unfold getTicketAmount
  rw [same]
  split_ifs <;> rfl

theorem ticket_amount_keeps_proc (p : Proc) (lower : 100 ≤ p.nice) (upper : p.nice ≤ 139) :
    (getTicketAmount p).2 = p := by
  unfold getTicketAmount
  split_ifs <;> first | rfl | omega

theorem ticket_amount_at_least_default (p : Proc) (upper : p.nice ≤ 129) :
    3 ≤ (getTicketAmount p).1 := by
  unfold getTicketAmount
  split_ifs <;> omega

theorem ticket_amount_default (p : Proc) (default : p.nice = 120) : (getTicketAmount p).1 = 3 := by
  simp [getTicketAmount, default]

def findUnused (t : Ptable) : Option Slot :=
  (List.finRange nproc).find? fun slot => (t.proc slot).state = .unused

theorem find_unused_state {t : Ptable} {slot : Slot} (found : findUnused t = some slot) :
    (t.proc slot).state = .unused := by
  simpa using List.find?_some found

/-- The ticket block at the end of `allocproc`. The tickets are those of the
current process `proc`, if there is one; the nice value is always the default. -/
def buyTickets (t : Ptable) (current : Option Slot) (slot : Slot) : Ptable :=
  match current with
  | none =>
    { setProc t slot { t.proc slot with nice := 120, tickets := 3 } with
      totalTickets := wrapInt (t.totalTickets + 3) }
  | some parent =>
    let named := setProc t slot { t.proc slot with nice := 120 }
    let amount := getTicketAmount (named.proc parent)
    let read := setProc named parent amount.2
    { setProc read slot { read.proc slot with tickets := amount.1 } with
      totalTickets := wrapInt (t.totalTickets + amount.1) }

/-- `allocproc`: take an unused slot, name it, and give it tickets. When the
kernel stack cannot be had the slot is returned before any ticket is handed out. -/
def allocproc (t : Ptable) (current : Option Slot) (kstack : Bool) : Option Slot × Ptable :=
  match findUnused t with
  | none => (none, t)
  | some slot =>
    let named := { setProc t slot
        { t.proc slot with state := .embryo, pid := t.nextpid } with
      nextpid := wrapInt (t.nextpid + 1) }
    if kstack then (some slot, buyTickets named current slot)
    else (none, setProc named slot { named.proc slot with state := .unused })

/-- The all-zero table of a kernel that has just been loaded. -/
def bootTable : Ptable where
  proc _ := { state := .unused, pid := 0, parent := none, chan := none,
              killed := false, nice := 0, tickets := 0 }
  totalTickets := 0
  nextpid := 1
  initproc := 0

/-- `userinit`, with no current process and a kernel stack at hand. -/
def userinit : Ptable :=
  match allocproc bootTable none true with
  | (some slot, t) =>
    { setProc t slot { t.proc slot with state := .runnable } with initproc := slot }
  | (none, t) => t

def fork (t : Ptable) (current : Slot) (kstack uvm : Bool) : Int × Ptable :=
  match allocproc t (some current) kstack with
  | (none, after) => (-1, after)
  | (some np, after) =>
    if uvm then
      ((after.proc np).pid,
        setProc after np { after.proc np with parent := some current, state := .runnable })
    else (-1, setProc after np { after.proc np with state := .unused })

def wakeup1 (t : Ptable) (chan : Option Chan) : Ptable :=
  { t with proc := fun slot =>
      if (t.proc slot).state = .sleeping ∧ (t.proc slot).chan = chan then
        { t.proc slot with state := .runnable }
      else t.proc slot }

def sleep (t : Ptable) (current : Slot) (chan : Chan) : Ptable :=
  setProc t current { t.proc current with chan := some chan, state := .sleeping }

def yield (t : Ptable) (current : Slot) : Ptable :=
  setProc t current { t.proc current with state := .runnable }

/-- The switch to a chosen process. One that comes back from `sleep` first
clears its channel, and nobody runs in between. -/
def dispatch (t : Ptable) (slot : Slot) : Ptable :=
  setProc t slot { t.proc slot with state := .running, chan := none }

def passChildren (t : Ptable) (current : Slot) : List Slot → Ptable
  | [] => t
  | slot :: rest =>
    if (t.proc slot).parent = some current then
      let adopted := setProc t slot { t.proc slot with parent := some t.initproc }
      if (t.proc slot).state = .zombie then
        passChildren (wakeup1 adopted (some (.proc t.initproc))) current rest
      else passChildren adopted current rest
    else passChildren t current rest

/-- `exit` up to the call of `sched`; `none` is the panic of an exiting init. -/
def exit (t : Ptable) (current : Slot) : Option Ptable :=
  if current = t.initproc then none
  else
    let woken := wakeup1 t ((t.proc current).parent.map .proc)
    let passed := passChildren woken current (List.finRange nproc)
    some { setProc passed current { passed.proc current with state := .zombie } with
      totalTickets := wrapInt (passed.totalTickets - (passed.proc current).tickets) }

inductive WaitResult where
  | reaped (pid : Int)
  | noChild
  | slept
  deriving DecidableEq, Repr

/-- One pass of the loop of `wait`: reap the first zombie child, or give up, or
go to sleep on the caller's own address. -/
def wait (t : Ptable) (current : Slot) : WaitResult × Ptable :=
  match (List.finRange nproc).find? fun slot =>
      (t.proc slot).parent = some current ∧ (t.proc slot).state = .zombie with
  | some slot =>
    (.reaped (t.proc slot).pid, setProc t slot { t.proc slot with
        state := .unused, pid := 0, parent := none, killed := false })
  | none =>
    if (¬ ∃ slot, (t.proc slot).parent = some current) ∨ (t.proc current).killed then
      (.noChild, t)
    else (.slept, sleep t current (.proc current))

/-- `kill` marks the first slot with that pid, whatever its state. -/
def kill (t : Ptable) (pid : Int) : Int × Ptable :=
  match (List.finRange nproc).find? fun slot => (t.proc slot).pid = pid with
  | some slot =>
    (0, setProc t slot { t.proc slot with
      killed := true
      state := if (t.proc slot).state = .sleeping then .runnable else (t.proc slot).state })
  | none => (-1, t)

/-- `updateNice(nice, p)` as `sys_nice` calls it, with `p` the current process. -/
def updateNice (t : Ptable) (current : Slot) (nice : Int) : Ptable :=
  let amount := getTicketAmount { t.proc current with nice := 120 + nice }
  { setProc t current { amount.2 with tickets := amount.1 } with
    totalTickets := wrapInt
      (wrapInt (t.totalTickets - (t.proc current).tickets) + amount.1) }

/-- `sys_nice`: only values from -20 to 19 get as far as `updateNice`. -/
def sysNice (t : Ptable) (current : Slot) (value : Int) : Int × Ptable :=
  if value < -20 ∨ value > 19 then (-1, t)
  else
    let after := updateNice t current value
    ((after.proc current).nice, after)

/-- The scan of `scheduler_lottery`: the first runnable process whose running
total of recomputed ticket amounts exceeds the random number. -/
def lotteryScan (random : Nat) : List Slot → Ptable → Nat → Option Slot × Ptable
  | [], t, _ => (none, t)
  | slot :: rest, t, runningTotal =>
    if (t.proc slot).state ≠ .runnable then lotteryScan random rest t runningTotal
    else
      let amount := getTicketAmount (t.proc slot)
      let read := setProc t slot amount.2
      if random < runningTotal + amount.1 then (some slot, read)
      else lotteryScan random rest read (runningTotal + amount.1)

def scan (t : Ptable) (random : Nat) : Option Slot × Ptable :=
  lotteryScan random (List.finRange nproc) t 0

inductive Action where
  | fork (current : Slot) (kstack uvm : Bool)
  | nice (current : Slot) (value : Int)
  | exit (current : Slot)
  | wait (current : Slot)
  | sleep (current : Slot) (chan : Chan)
  | yield (current : Slot)
  | wakeup (chan : Chan)
  | kill (pid : Int)
  | lottery (random : Nat)
  | roundRobin (slot : Slot)
  deriving DecidableEq, Repr

/-- System calls are made by running processes. `none` is an action that is not
enabled, or a panic. -/
def step (t : Ptable) : Action → Option Ptable
  | .fork current kstack uvm =>
    if (t.proc current).state = .running then some (fork t current kstack uvm).2 else none
  | .nice current value =>
    if (t.proc current).state = .running then some (sysNice t current value).2 else none
  | .exit current =>
    if (t.proc current).state = .running then exit t current else none
  | .wait current =>
    if (t.proc current).state = .running then some (wait t current).2 else none
  | .sleep current chan =>
    if (t.proc current).state = .running then some (sleep t current chan) else none
  | .yield current =>
    if (t.proc current).state = .running then some (yield t current) else none
  | .wakeup chan => some (wakeup1 t (some chan))
  | .kill pid => some (kill t pid).2
  | .lottery random =>
    match scan t random with
    | (some slot, read) => some (dispatch read slot)
    | (none, read) => some read
  | .roundRobin slot =>
    if (t.proc slot).state = .runnable then some (dispatch t slot) else none

end Xv6Hacks.ProcTable
