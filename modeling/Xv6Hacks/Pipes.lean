import Xv6Hacks.ByteBuffers
import Xv6Hacks.GuardedRuns
import Xv6Hacks.RingBuffers

/-!
# Pipes

`pipewrite`, `piperead` and `pipeclose` of `pipe.c` on one pipe, by any number of
processes. A step is a stretch of one call from taking the pipe's lock to sleeping or
releasing it. What `proc->killed` reads in a stretch is part of the event, and `kill` may
wake a sleeping process at any time. The bytes stored by all writes and those returned by
all reads are recorded.
-/

namespace Xv6Hacks.Pipes

open Function GuardedRuns RingBuffers
open ByteBuffers (Byte)

def pipesize : Nat := 512

structure Pipe extends RingBuffer Byte where
  readopen : Bool
  writeopen : Bool

def Pipe.full (pipe : Pipe) : Prop := pipe.nwrite = pipe.nread + BitVec.ofNat 32 pipesize

def Pipe.empty (pipe : Pipe) : Prop := pipe.nread = pipe.nwrite

instance (pipe : Pipe) : Decidable pipe.full := inferInstanceAs (Decidable (_ = _))

instance (pipe : Pipe) : Decidable pipe.empty := inferInstanceAs (Decidable (_ = _))

inductive Ending where
  | returned
  /-- `return -1` at a full pipe. -/
  | failed
  /-- `sleep(&p->nwrite, &p->lock)` with these bytes to go. -/
  | sleeps (rest : List Byte)
  deriving DecidableEq, Repr

/-- The loop of `pipewrite` on the bytes still to be written: the pipe, the bytes stored
and how the stretch ends. -/
def writeLoop (killed : Bool) (pipe : Pipe) : List Byte → Pipe × List Byte × Ending
  | [] => (pipe, [], .returned)
  | byte :: rest =>
    if pipe.full then
      if pipe.readopen = false ∨ killed = true then (pipe, [], .failed)
      else (pipe, [], .sleeps (byte :: rest))
    else
      let (pipe, stored, ending) :=
        writeLoop killed { pipe with toRingBuffer := pipe.push pipesize byte } rest
      (pipe, byte :: stored, ending)

/-- The copying loop of `piperead`: the pipe and the bytes read. -/
def readLoop (pipe : Pipe) : Nat → Pipe × List Byte
  | 0 => (pipe, [])
  | n + 1 =>
    if pipe.empty then (pipe, [])
    else
      let byte := pipe.front pipesize
      let (pipe, bytes) := readLoop { pipe with toRingBuffer := pipe.pop } n
      (pipe, byte :: bytes)

/-- Where a process is: outside the pipe's functions, in a call and about to take the
lock again, or asleep on `&p->nwrite` or `&p->nread`. -/
inductive Position where
  | outside
  | writing (rest : List Byte)
  | reading (n : Nat)
  | writeAsleep (rest : List Byte)
  | readAsleep (n : Nat)
  deriving DecidableEq, Repr

variable {Pid : Type}

structure State (Pid : Type) where
  pipe : Pipe
  freed : Bool
  procs : Pid → Position
  /-- All bytes stored so far, in order. -/
  stored : List Byte
  /-- All bytes returned so far, in order. -/
  returned : List Byte

inductive Event (Pid : Type) where
  /-- A call of `pipewrite`, up to its first sleep or its return. -/
  | write (p : Pid) (bytes : List Byte) (killed : Bool)
  | resumeWrite (p : Pid) (killed : Bool)
  | read (p : Pid) (n : Nat) (killed : Bool)
  | resumeRead (p : Pid) (killed : Bool)
  | close (writable : Bool)
  /-- `kill` makes a sleeping process runnable. -/
  | kill (p : Pid)
  deriving DecidableEq

def wakeReaders (procs : Pid → Position) (p : Pid) : Position :=
  match procs p with
  | .readAsleep n => .reading n
  | position => position

def wakeWriters (procs : Pid → Position) (p : Pid) : Position :=
  match procs p with
  | .writeAsleep rest => .writing rest
  | position => position

variable [DecidableEq Pid]

def pipewrite (s : State Pid) (p : Pid) (bytes : List Byte) (killed : Bool) : State Pid :=
  let (pipe, stored, ending) := writeLoop killed s.pipe bytes
  { s with
    pipe := pipe
    stored := s.stored ++ stored
    procs :=
      match ending with
      | .returned => update (wakeReaders s.procs) p .outside
      | .failed => update s.procs p .outside
      | .sleeps rest => update (wakeReaders s.procs) p (.writeAsleep rest) }

def piperead (s : State Pid) (p : Pid) (n : Nat) (killed : Bool) : State Pid :=
  if s.pipe.empty ∧ s.pipe.writeopen = true then
    if killed then { s with procs := update s.procs p .outside }
    else { s with procs := update s.procs p (.readAsleep n) }
  else
    let (pipe, bytes) := readLoop s.pipe n
    { s with
      pipe := pipe
      returned := s.returned ++ bytes
      procs := update (wakeWriters s.procs) p .outside }

def pipeclose (s : State Pid) (writable : Bool) : State Pid :=
  let pipe :=
    if writable then { s.pipe with writeopen := false } else { s.pipe with readopen := false }
  { s with
    pipe := pipe
    procs := if writable then wakeReaders s.procs else wakeWriters s.procs
    freed := !pipe.readopen && !pipe.writeopen }

/-- Nothing happens to a pipe that has been freed. -/
def step (s : State Pid) (event : Event Pid) : Option (State Pid) :=
  if s.freed then none
  else
    match event with
    | .write p bytes killed =>
      if s.procs p = .outside then some (pipewrite s p bytes killed) else none
    | .resumeWrite p killed =>
      match s.procs p with
      | .writing rest => some (pipewrite s p rest killed)
      | _ => none
    | .read p n killed =>
      if s.procs p = .outside then some (piperead s p n killed) else none
    | .resumeRead p killed =>
      match s.procs p with
      | .reading n => some (piperead s p n killed)
      | _ => none
    | .close writable => some (pipeclose s writable)
    | .kill p =>
      match s.procs p with
      | .readAsleep n => some { s with procs := update s.procs p (.reading n) }
      | .writeAsleep rest => some { s with procs := update s.procs p (.writing rest) }
      | _ => some s

/-- The pipe that `pipealloc` sets up; `kalloc` does not clear the page. -/
def start (data : Nat → Byte) : State Pid where
  pipe := { data := data, nread := 0, nwrite := 0, readopen := true, writeopen := true }
  freed := false
  procs := fun _ => .outside
  stored := []
  returned := []

theorem pipesize_lt : pipesize < 2 ^ 32 := by decide

theorem pipesize_dvd : pipesize ∣ 2 ^ 32 := by decide

theorem full_iff {pipe : Pipe} {items : List Byte} (holds : Holds pipesize pipe.toRingBuffer items) :
    pipe.full ↔ items.length = pipesize := holds.full_iff pipesize_lt

theorem empty_iff {pipe : Pipe} {items : List Byte} (holds : Holds pipesize pipe.toRingBuffer items) :
    pipe.empty ↔ items = [] := holds.empty_iff pipesize_lt

/-- The loop of `pipewrite` appends what it stores and leaves the ends of the pipe open or
closed as they are. It stores nothing in a full pipe, and it sleeps only when the pipe is
full and the read end open. -/
structure Appended (pipe : Pipe) (items : List Byte) (result : Pipe × List Byte × Ending) :
    Prop where
  holds : Holds pipesize result.1.toRingBuffer (items ++ result.2.1)
  readopen : result.1.readopen = pipe.readopen
  writeopen : result.1.writeopen = pipe.writeopen
  idle : result.2.1 = [] → result.1 = pipe
  refused : pipe.full → result.2.1 = []
  sleeps : ∀ rest, result.2.2 = .sleeps rest → result.1.full ∧ result.1.readopen = true

theorem appended_nothing {pipe : Pipe} {items : List Byte} {ending : Ending}
    (holds : Holds pipesize pipe.toRingBuffer items)
    (sleeps : ∀ rest, ending = .sleeps rest → pipe.full ∧ pipe.readopen = true) :
    Appended pipe items (pipe, [], ending) where
  holds := by
    rw [List.append_nil]
    exact holds
  readopen := rfl
  writeopen := rfl
  idle := fun _ => rfl
  refused := fun _ => rfl
  sleeps := sleeps

theorem write_loop_spec (killed : Bool) (bytes : List Byte) (pipe : Pipe) (items : List Byte)
    (holds : Holds pipesize pipe.toRingBuffer items) :
    Appended pipe items (writeLoop killed pipe bytes) := by
  induction bytes generalizing pipe items with
  | nil =>
    apply appended_nothing holds
    intro rest sleeps
    cases sleeps
  | cons byte bytes ih =>
    unfold writeLoop
    by_cases full : pipe.full
    · rw [if_pos full]
      by_cases fails : pipe.readopen = false ∨ killed = true
      · rw [if_pos fails]
        apply appended_nothing holds
        intro rest sleeps
        cases sleeps
      · rw [if_neg fails]
        apply appended_nothing holds
        intro rest _
        exact ⟨full, by simpa using mt .inl fails⟩
    · rw [if_neg full]
      have room : items.length < pipesize := by
        have fits := holds.fits
        have notFull := mt (full_iff holds).mpr full
        omega
      have later := ih { pipe with toRingBuffer := pipe.push pipesize byte } (items ++ [byte])
        (holds.push pipesize_dvd room byte)
      refine ⟨?_, later.readopen, later.writeopen, ?_, fun now => absurd now full, later.sleeps⟩
      · have kept := later.holds
        rw [List.append_assoc] at kept
        exact kept
      · intro nothing
        cases nothing

theorem read_loop_spec (n : Nat) (pipe : Pipe) (items : List Byte)
    (holds : Holds pipesize pipe.toRingBuffer items) : ∃ rest, items = (readLoop pipe n).2 ++ rest ∧
    Holds pipesize (readLoop pipe n).1.toRingBuffer rest := by
  induction n generalizing pipe items with
  | zero => exact ⟨items, rfl, holds⟩
  | succ n ih =>
    unfold readLoop
    by_cases empty : pipe.empty
    · rw [if_pos empty]
      exact ⟨items, rfl, holds⟩
    · rw [if_neg empty]
      cases items with
      | nil => exact absurd ((empty_iff holds).mpr rfl) empty
      | cons byte items =>
        obtain ⟨rest, split, kept⟩ := ih { pipe with toRingBuffer := pipe.pop } items
          (holds.pop pipesize_dvd)
        refine ⟨rest, ?_, kept⟩
        rw [split]
        exact congrArg (· :: _) holds.front.symm

/-- The pipe never holds more than `PIPESIZE` bytes; what reads have returned is a prefix
of what writes have stored, and the rest is in the buffer; no process sleeps for room in
a pipe that has some, or for bytes in a pipe that has some. -/
structure Correct (s : State Pid) : Prop where
  bounded : (s.pipe.nwrite - s.pipe.nread).toNat ≤ pipesize
  fifo : s.stored = s.returned ++ s.pipe.contents pipesize
  writers : ∀ p rest, s.procs p = .writeAsleep rest → s.pipe.full ∧ s.pipe.readopen = true
  readers : ∀ p n, s.procs p = .readAsleep n → s.pipe.empty ∧ s.pipe.writeopen = true

structure Sound (s : State Pid) : Prop where
  held : ∃ items, s.stored = s.returned ++ items ∧ Holds pipesize s.pipe.toRingBuffer items
  writers : ∀ p rest, s.procs p = .writeAsleep rest → s.pipe.full ∧ s.pipe.readopen = true
  readers : ∀ p n, s.procs p = .readAsleep n → s.pipe.empty ∧ s.pipe.writeopen = true

omit [DecidableEq Pid] in
theorem Sound.correct {s : State Pid} (sound : Sound s) : Correct s := by
  obtain ⟨items, split, holds⟩ := sound.held
  refine ⟨?_, ?_, sound.writers, sound.readers⟩
  · rw [holds.difference pipesize_lt]
    exact holds.fits
  · rw [split, holds.contents pipesize_lt]

/-- A write does not fail after storing bytes while a process sleeps for bytes. -/
def WakesReaders (s : State Pid) (bytes : List Byte) (killed : Bool) : Prop :=
  (writeLoop killed s.pipe bytes).2.2 = .failed → (writeLoop killed s.pipe bytes).2.1 ≠ [] →
    ∀ p n, s.procs p ≠ .readAsleep n

def Unstranding (s : State Pid) : Event Pid → Prop
  | .write _ bytes killed => WakesReaders s bytes killed
  | .resumeWrite p killed => ∀ rest, s.procs p = .writing rest → WakesReaders s rest killed
  | _ => True

section Waking
variable {procs : Pid → Position} {p : Pid}

omit [DecidableEq Pid] in
theorem wake_readers_awake (n : Nat) : wakeReaders procs p ≠ .readAsleep n := by
  unfold wakeReaders
  cases procs p <;> simp

omit [DecidableEq Pid] in
theorem wake_readers_writer {rest : List Byte} (asleep : wakeReaders procs p = .writeAsleep rest) :
    procs p = .writeAsleep rest := by
  unfold wakeReaders at asleep
  cases position : procs p <;> simp_all

omit [DecidableEq Pid] in
theorem wake_writers_awake (rest : List Byte) : wakeWriters procs p ≠ .writeAsleep rest := by
  unfold wakeWriters
  cases procs p <;> simp

omit [DecidableEq Pid] in
theorem wake_writers_reader {n : Nat} (asleep : wakeWriters procs p = .readAsleep n) :
    procs p = .readAsleep n := by
  unfold wakeWriters at asleep
  cases position : procs p <;> simp_all

theorem update_asleep {position asleep : Position} {q : Pid}
    (sleeps : update procs p position q = asleep) :
    (q = p ∧ position = asleep) ∨ procs q = asleep := by
  by_cases same : q = p
  · subst same
    rw [update_self] at sleeps
    exact .inl ⟨rfl, sleeps⟩
  · rw [update_of_ne same] at sleeps
    exact .inr sleeps

theorem asleep_elsewhere {position asleep : Position} {q : Pid}
    (sleeps : update procs p position q = asleep) (awake : position ≠ asleep) : procs q = asleep :=
  (update_asleep sleeps).resolve_left fun here => awake here.2

end Waking

variable {s after : State Pid}

theorem pipewrite_sound (sound : Sound s) (p : Pid) {bytes : List Byte} {killed : Bool}
    (wakes : WakesReaders s bytes killed) : Sound (pipewrite s p bytes killed) := by
  obtain ⟨items, split, holds⟩ := sound.held
  have spec := write_loop_spec killed bytes s.pipe items holds
  unfold WakesReaders at wakes
  unfold pipewrite
  generalize writeLoop killed s.pipe bytes = result at spec wakes ⊢
  obtain ⟨pipe, stored, ending⟩ := result
  simp only at wakes ⊢
  -- A process asleep for room slept at a full pipe, in which nothing was stored.
  have writersKept (q : Pid) (rest : List Byte) (asleep : s.procs q = .writeAsleep rest) :
      pipe.full ∧ pipe.readopen = true := by
    have before := sound.writers q rest asleep
    have same : pipe = s.pipe := spec.idle (spec.refused before.1)
    rw [same]
    exact before
  refine ⟨⟨items ++ stored, ?_, spec.holds⟩, ?_, ?_⟩
  · rw [split, List.append_assoc]
  · intro q rest asleep
    cases ending with
    | returned =>
      exact writersKept q rest (wake_readers_writer (asleep_elsewhere asleep nofun))
    | failed =>
      exact writersKept q rest (asleep_elsewhere asleep nofun)
    | sleeps later =>
      rcases update_asleep asleep with ⟨-, here⟩ | there
      · exact spec.sleeps later rfl
      · exact writersKept q rest (wake_readers_writer there)
  · intro q n asleep
    cases ending with
    | returned =>
      exact absurd (asleep_elsewhere asleep nofun) (wake_readers_awake n)
    | failed =>
      rcases update_asleep asleep with ⟨-, here⟩ | there
      · cases here
      · by_cases nothing : stored = []
        · have same : pipe = s.pipe := spec.idle nothing
          rw [same]
          exact sound.readers q n there
        · exact absurd there (wakes rfl nothing q n)
    | sleeps later =>
      exact absurd (asleep_elsewhere asleep nofun) (wake_readers_awake n)

theorem piperead_sound (sound : Sound s) (p : Pid) (n : Nat) (killed : Bool) :
    Sound (piperead s p n killed) := by
  unfold piperead
  split
  next waits =>
    split
    next =>
      refine ⟨sound.held, ?_, ?_⟩
      · intro q rest asleep
        exact sound.writers q rest (asleep_elsewhere asleep nofun)
      · intro q m asleep
        exact sound.readers q m (asleep_elsewhere asleep nofun)
    next =>
      refine ⟨sound.held, ?_, ?_⟩
      · intro q rest asleep
        exact sound.writers q rest (asleep_elsewhere asleep nofun)
      · intro q m asleep
        rcases update_asleep asleep with ⟨-, here⟩ | there
        · exact waits
        · exact sound.readers q m there
  next reads =>
    obtain ⟨items, split, holds⟩ := sound.held
    obtain ⟨rest, taken, left⟩ := read_loop_spec n s.pipe items holds
    refine ⟨⟨rest, ?_, left⟩, ?_, ?_⟩
    · simp only
      rw [split, taken, List.append_assoc]
    · intro q rest asleep
      exact absurd (asleep_elsewhere asleep nofun) (wake_writers_awake rest)
    · intro q m asleep
      exact absurd (sound.readers q m (wake_writers_reader (asleep_elsewhere asleep nofun))) reads

omit [DecidableEq Pid] in
theorem pipeclose_sound (sound : Sound s) (writable : Bool) : Sound (pipeclose s writable) := by
  cases writable with
  | true =>
    refine ⟨sound.held, ?_, ?_⟩
    · intro q rest asleep
      exact sound.writers q rest (wake_readers_writer asleep)
    · intro q n asleep
      exact absurd asleep (wake_readers_awake n)
  | false =>
    refine ⟨sound.held, ?_, ?_⟩
    · intro q rest asleep
      exact absurd asleep (wake_writers_awake rest)
    · intro q n asleep
      exact sound.readers q n (wake_writers_reader asleep)

theorem kill_sound (sound : Sound s) (p : Pid) {position : Position}
    (awake : (∀ rest, position ≠ .writeAsleep rest) ∧ ∀ n, position ≠ .readAsleep n) :
    Sound { s with procs := update s.procs p position } where
  held := sound.held
  writers := by
    intro q rest asleep
    rcases update_asleep asleep with ⟨-, here⟩ | there
    · exact absurd here (awake.1 rest)
    · exact sound.writers q rest there
  readers := by
    intro q n asleep
    rcases update_asleep asleep with ⟨-, here⟩ | there
    · exact absurd here (awake.2 n)
    · exact sound.readers q n there

theorem step_sound {event : Event Pid} (sound : Sound s) (wakes : Unstranding s event)
    (taken : step s event = some after) : Sound after := by
  unfold step at taken
  split at taken
  · cases taken
  · cases event with
    | write p bytes killed =>
      simp only at taken
      split at taken
      · cases taken
        exact pipewrite_sound sound p wakes
      · cases taken
    | resumeWrite p killed =>
      simp only at taken
      split at taken
      next rest position =>
        cases taken
        exact pipewrite_sound sound p (wakes rest position)
      next => cases taken
    | read p n killed =>
      simp only at taken
      split at taken
      · cases taken
        exact piperead_sound sound p n killed
      · cases taken
    | resumeRead p killed =>
      simp only at taken
      split at taken
      next n position =>
        cases taken
        exact piperead_sound sound p n killed
      next => cases taken
    | close writable =>
      cases taken
      exact pipeclose_sound sound writable
    | kill p =>
      simp only at taken
      split at taken
      next n position =>
        cases taken
        exact kill_sound sound p ⟨by simp, by simp⟩
      next rest position =>
        cases taken
        exact kill_sound sound p ⟨by simp, by simp⟩
      next =>
        cases taken
        exact sound

omit [DecidableEq Pid] in
theorem start_sound (data : Nat → Byte) : Sound (start data : State Pid) where
  held := by
    refine ⟨[], rfl, Nat.zero_le _, rfl, ?_⟩
    intro index bound
    cases bound
  writers := by
    intro p rest asleep
    cases asleep
  readers := by
    intro p n asleep
    cases asleep

/-- In every run of writes, reads, closes and kills by any number of processes in which no
write fails at a full pipe after storing bytes that a sleeping reader waits for. -/
theorem pipe_lossless_fifo (data : Nat → Byte)
    (reached : Reaches step Unstranding (start data) s) : Correct s := by
  apply Sound.correct
  apply reaches_invariant Sound (start_sound data) _ reached
  intro before event next sound wakes taken
  exact step_sound sound wakes taken

local instance twoPidsNeZero : NeZero 2 := ⟨by decide⟩

/-- Process 1 sleeps for bytes, process 0 writes three, and process 1 takes two. -/
def smallRun : List (Event (Fin 2)) :=
  [.read 1 2 false, .write 0 [7, 8, 9] false, .resumeRead 1 false]

theorem small_run_correct :
    ∃ s : State (Fin 2), run step (start fun _ => 0) smallRun = some s ∧ s.returned = [7, 8] ∧
      Correct s := by
  obtain ⟨s, ran⟩ : ∃ s, run step (start fun _ => 0 : State (Fin 2)) smallRun = some s :=
    ⟨_, rfl⟩
  have returned : (run step (start fun _ => 0 : State (Fin 2)) smallRun).map State.returned =
      some [7, 8] := by decide
  rw [ran] at returned
  refine ⟨s, ran, Option.some.inj returned, pipe_lossless_fifo (fun _ => 0) ?_⟩
  apply reaches_of_run _ ran
  refine ⟨trivial, ?_⟩
  intro first taken
  refine ⟨?_, fun second _ => ⟨trivial, fun _ _ => trivial⟩⟩
  cases Option.some.inj taken
  intro failed
  exact absurd failed (by decide)

theorem write_loop_fills (bytes : List Byte) (pipe : Pipe) (items : List Byte)
    (holds : Holds pipesize pipe.toRingBuffer items)
    (enough : pipesize < items.length + bytes.length) : (writeLoop true pipe bytes).2.2 = .failed ∧
    (writeLoop true pipe bytes).2.1.length = pipesize - items.length := by
  induction bytes generalizing pipe items with
  | nil =>
    have fits := holds.fits
    rw [List.length_nil] at enough
    omega
  | cons byte bytes ih =>
    unfold writeLoop
    by_cases full : pipe.full
    · rw [if_pos full, if_pos (.inr rfl)]
      have count := (full_iff holds).mp full
      exact ⟨rfl, by rw [List.length_nil]; omega⟩
    · rw [if_neg full]
      have fits := holds.fits
      have notFull := mt (full_iff holds).mpr full
      have later := ih { pipe with toRingBuffer := pipe.push pipesize byte } (items ++ [byte])
        (holds.push pipesize_dvd (by omega) byte)
        (by rw [List.length_append, List.length_singleton]; rw [List.length_cons] at enough; omega)
      rw [List.length_append, List.length_singleton] at later
      exact ⟨later.1, (congrArg Nat.succ later.2).trans (by omega)⟩

/-- Process 1 sleeps at the empty pipe. Process 0, which has been killed, writes more than
fits: it fills the pipe, finds it full and returns without `wakeup(&p->nread)`. -/
def strandingRun (bytes : List Byte) : List (Event (Fin 2)) :=
  [.read 1 1 false, .write 0 bytes true]

theorem stranding_run_incorrect {bytes : List Byte} (many : pipesize < bytes.length) :
    ∃ s, run step (start fun _ => 0) (strandingRun bytes) = some s ∧ ¬ Correct s := by
  let asleep : State (Fin 2) := piperead (start fun _ => 0) 1 1 false
  have holds : Holds pipesize asleep.pipe.toRingBuffer [] :=
    ⟨Nat.zero_le _, rfl, fun index bound => by cases bound⟩
  have fills := write_loop_fills bytes asleep.pipe [] holds (by rw [List.length_nil]; omega)
  have spec := write_loop_spec true bytes asleep.pipe [] holds
  refine ⟨pipewrite asleep 0 bytes true, rfl, ?_⟩
  intro correct
  have procs : (pipewrite asleep 0 bytes true).procs 1 = .readAsleep 1 := by
    simp only [pipewrite, fills.1]
    rfl
  have empty := (empty_iff spec.holds).mp (correct.readers 1 1 procs).1
  have count := fills.2
  rw [List.nil_append] at empty
  rw [empty] at count
  exact absurd count (by decide)

theorem killed_writer_strands_reader : ¬ ∀ (data : Nat → Byte) (s : State (Fin 2)),
      Reaches step (fun _ _ => True) (start data) s → Correct s := by
  intro always
  obtain ⟨s, ran, stranded⟩ := @stranding_run_incorrect (List.replicate 513 0)
    (by rw [List.length_replicate]; decide)
  exact stranded (always (fun _ => 0) s (reaches_of_run (all_guarded_trivial _ _) ran))

end Xv6Hacks.Pipes
