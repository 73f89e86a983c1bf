import Mathlib.Data.Fintype.Prod
import Xv6Hacks.GuardedRuns
import Xv6Hacks.Outcomes
import Xv6Hacks.ProcTable
import Xv6Hacks.ReferenceCounts

/-!
# Open files and pipe ends

The file table of `file.c`, the descriptors of every process and the pages of the pipes,
under `open`, `dup`, `close`, `pipe`, `fork`, `exit` and `wait`, each call taken as one
step. The inode layer answers arbitrarily: `open` comes with the inode that `namei` or
`create` found, or with none. The ring buffer of a pipe is left out; `allocs` and `frees`
count how often a page was handed out for a pipe and freed by `pipeclose`.
-/

namespace Xv6Hacks.OpenFiles

open Function GuardedRuns Outcomes ReferenceCounts
open ProcTable (nproc)

abbrev nfile : Nat := 100
abbrev nofile : Nat := 16

abbrev FileSlot := Fin nfile
abbrev Fd := Fin nofile
abbrev Pid := Fin nproc

inductive FileType where
  | fdNone
  | fdPipe
  | fdInode
  deriving DecidableEq, Repr

structure File where
  type : FileType
  ref : Nat
  readable : Bool
  writable : Bool
  pipe : Nat
  ip : Nat
  off : Nat
  deriving DecidableEq, Repr

structure Pipe where
  readopen : Bool
  writeopen : Bool
  deriving DecidableEq, Repr

structure Files where
  ftable : FileSlot → File
  pipes : Nat → Pipe
  allocs : Nat → Nat
  frees : Nat → Nat

inductive Stop where
  /-- "filedup" -/
  | filedup
  /-- "fileclose" -/
  | fileclose
  /-- "init exiting" -/
  | initExiting
  deriving DecidableEq, Repr

def Files.setFile (files : Files) (f : FileSlot) (file : File) : Files :=
  { files with ftable := update files.ftable f file }

def Files.setPipe (files : Files) (page : Nat) (pipe : Pipe) : Files :=
  { files with pipes := update files.pipes page pipe }

theorem setFile_self (files : Files) (f : FileSlot) (file : File) :
    (files.setFile f file).ftable f = file := update_self ..

theorem setFile_of_ne (files : Files) {f g : FileSlot} (file : File) (different : g ≠ f) :
    (files.setFile f file).ftable g = files.ftable g := update_of_ne different ..

def filealloc (files : Files) : Option (FileSlot × Files) :=
  match (List.finRange nfile).find? fun f => decide ((files.ftable f).ref = 0) with
  | none => none
  | some f => some (f, files.setFile f { files.ftable f with ref := 1 })

def filedup (files : Files) (f : FileSlot) : Except Stop Files :=
  let file := files.ftable f
  if file.ref < 1 then .error .filedup
  else .ok (files.setFile f { file with ref := file.ref + 1 })

/-- The page is filled with ones. -/
def kfree (files : Files) (page : Nat) : Files :=
  { files.setPipe page ⟨true, true⟩ with
    frees := update files.frees page (files.frees page + 1) }

def pipeclose (files : Files) (page : Nat) (writable : Bool) : Files :=
  let pipe := files.pipes page
  let pipe := if writable then { pipe with writeopen := false }
    else { pipe with readopen := false }
  let files := files.setPipe page pipe
  if pipe.readopen = false ∧ pipe.writeopen = false then kfree files page else files

/-- `iput(ff.ip)` is a matter of the inode layer. -/
def fileclose (files : Files) (f : FileSlot) : Except Stop Files :=
  let ff := files.ftable f
  if ff.ref < 1 then .error .fileclose
  else if 0 < ff.ref - 1 then .ok (files.setFile f { ff with ref := ff.ref - 1 })
  else
    let files := files.setFile f { ff with ref := 0, type := .fdNone }
    match ff.type with
    | .fdPipe => .ok (pipeclose files ff.pipe ff.writable)
    | .fdNone | .fdInode => .ok files

/-- The two ends of a new pipe in the page that `kalloc` returned, or `none`. -/
def pipealloc (files : Files) (page : Option Nat) :
    Except Stop (Option (FileSlot × FileSlot) × Files) :=
  match filealloc files with
  | none => .ok (none, files)
  | some (f0, files) =>
    match filealloc files with
    | none => do
      let files ← fileclose files f0
      .ok (none, files)
    | some (f1, files) =>
      match page with
      | none => do
        let files ← fileclose files f0
        let files ← fileclose files f1
        .ok (none, files)
      | some page =>
        let files := { files.setPipe page ⟨true, true⟩ with
          allocs := update files.allocs page (files.allocs page + 1) }
        let files := files.setFile f0 { files.ftable f0 with
          type := .fdPipe, readable := true, writable := false, pipe := page }
        let files := files.setFile f1 { files.ftable f1 with
          type := .fdPipe, readable := false, writable := true, pipe := page }
        .ok (some (f0, f1), files)

inductive ProcState where
  | unused
  | runnable
  | zombie
  deriving DecidableEq, Repr

structure Proc where
  state : ProcState
  ofile : Fd → Option FileSlot

structure State where
  files : Files
  procs : Pid → Proc
  initproc : Pid

def State.setProc (state : State) (p : Pid) (proc : Proc) : State :=
  { state with procs := update state.procs p proc }

def State.setFd (state : State) (p : Pid) (fd : Fd) (file : Option FileSlot) : State :=
  state.setProc p
    { state.procs p with ofile := update (state.procs p).ofile fd file }

/-- The descriptor and the file of an argument, if there is one. -/
def argfd (state : State) (p : Pid) (fd : Int) : Option (Fd × FileSlot) :=
  if range : 0 ≤ fd ∧ fd < nofile then
    let fd : Fd := ⟨fd.toNat, by omega⟩
    ((state.procs p).ofile fd).map fun f => (fd, f)
  else none

def fdalloc (state : State) (p : Pid) (f : FileSlot) : Option (Fd × State) :=
  match (List.finRange nofile).find? fun fd => decide ((state.procs p).ofile fd = none) with
  | none => none
  | some fd => some (fd, state.setFd p fd (some f))

abbrev Answer := Except Stop (Int × State)

def sysDup (state : State) (p : Pid) (fd : Int) : Answer :=
  match argfd state p fd with
  | none => .ok (-1, state)
  | some (_, f) =>
    match fdalloc state p f with
    | none => .ok (-1, state)
    | some (fd, state) => do
      let files ← filedup state.files f
      .ok (fd, { state with files := files })

def sysClose (state : State) (p : Pid) (fd : Int) : Answer :=
  match argfd state p fd with
  | none => .ok (-1, state)
  | some (fd, f) => do
    let state := state.setFd p fd none
    let files ← fileclose state.files f
    .ok (0, { state with files := files })

def oWronly : Nat := 1
def oRdwr : Nat := 2

/-- `ip` is the inode that was found or created; without one the call has failed before it
comes to the file table. -/
def sysOpen (state : State) (p : Pid) (ip : Option Nat) (omode : Nat) : Answer :=
  match ip with
  | none => .ok (-1, state)
  | some ip =>
    match filealloc state.files with
    | none => .ok (-1, state)
    | some (f, files) =>
      let state := { state with files := files }
      match fdalloc state p f with
      | none => do
        let files ← fileclose state.files f
        .ok (-1, { state with files := files })
      | some (fd, state) =>
        let file := { state.files.ftable f with
          type := .fdInode, ip := ip, off := 0
          readable := omode &&& oWronly = 0
          writable := omode &&& oWronly ≠ 0 ∨ omode &&& oRdwr ≠ 0 }
        .ok (fd, { state with files := state.files.setFile f file })

/-- `valid` says whether the argument is a pointer into the process. -/
def sysPipe (state : State) (p : Pid) (valid : Bool) (page : Option Nat) : Answer :=
  if valid = false then .ok (-1, state)
  else do
    let (pair, files) ← pipealloc state.files page
    let state := { state with files := files }
    match pair with
    | none => .ok (-1, state)
    | some (rf, wf) =>
      match fdalloc state p rf with
      | none => do
        let files ← fileclose state.files rf
        let files ← fileclose files wf
        .ok (-1, { state with files := files })
      | some (fd0, state) =>
        match fdalloc state p wf with
        | none => do
          let state := state.setFd p fd0 none
          let files ← fileclose state.files rf
          let files ← fileclose files wf
          .ok (-1, { state with files := files })
        | some (_, state) => .ok (0, state)

/-- `if(proc->ofile[i]) np->ofile[i] = filedup(proc->ofile[i])` -/
def forkFd (p np : Pid) (state : State) (fd : Fd) : Except Stop State :=
  match (state.procs p).ofile fd with
  | none => .ok state
  | some f => do
    let files ← filedup state.files f
    .ok ({ state with files := files }.setFd np fd (some f))

/-- `copied` says whether the address space could be copied. -/
def fork (state : State) (p : Pid) (copied : Bool) : Answer :=
  match (List.finRange nproc).find? fun np => decide ((state.procs np).state = .unused) with
  | none => .ok (-1, state)
  | some np =>
    if copied = false then .ok (-1, state)
    else do
      let state ← (List.finRange nofile).foldlM (forkFd p np) state
      .ok (np, state.setProc np { state.procs np with state := .runnable })

def exitFd (p : Pid) (state : State) (fd : Fd) : Except Stop State :=
  match (state.procs p).ofile fd with
  | none => .ok state
  | some f => do
    let files ← fileclose state.files f
    .ok ({ state with files := files }.setFd p fd none)

def exit (state : State) (p : Pid) : Answer :=
  if p = state.initproc then .error .initExiting
  else do
    let state ← (List.finRange nofile).foldlM (exitFd p) state
    .ok (0, state.setProc p { state.procs p with state := .zombie })

def wait (state : State) (child : Pid) : Answer :=
  if (state.procs child).state = .zombie then
    .ok (child, state.setProc child { state.procs child with state := .unused })
  else .ok (-1, state)

inductive Call where
  | openFile (p : Pid) (ip : Option Nat) (omode : Nat)
  | dup (p : Pid) (fd : Int)
  | close (p : Pid) (fd : Int)
  | pipe (p : Pid) (valid : Bool) (page : Option Nat)
  | fork (p : Pid) (copied : Bool)
  | exit (p : Pid)
  | wait (p child : Pid)

def perform (state : State) : Call → Answer
  | .openFile p ip omode => sysOpen state p ip omode
  | .dup p fd => sysDup state p fd
  | .close p fd => sysClose state p fd
  | .pipe p valid page => sysPipe state p valid page
  | .fork p copied => fork state p copied
  | .exit p => exit state p
  | .wait _ child => wait state child

def step (state : State) (call : Call) : Option State :=
  match perform state call with
  | .ok (_, after) => some after
  | .error _ => none

def Call.caller : Call → Pid
  | .openFile p _ _ | .dup p _ | .close p _ | .pipe p _ _ | .fork p _ | .exit p | .wait p _ => p

def Call.page : Call → Option Nat
  | .pipe _ _ page => page
  | _ => none

/-- A running process calls, and `kalloc` hands out no page that is a pipe already. -/
def Permitted (state : State) (call : Call) : Prop :=
  (state.procs call.caller).state = .runnable ∧
    ∀ page ∈ call.page, state.files.allocs page = state.files.frees page

instance (state : State) (call : Call) : Decidable (Permitted state call) :=
  inferInstanceAs (Decidable (_ ∧ _))

structure Start (state : State) : Prop where
  files : ∀ f, (state.files.ftable f).ref = 0 ∧ (state.files.ftable f).type = .fdNone
  pages : ∀ page, state.files.allocs page = 0 ∧ state.files.frees page = 0
  procs : ∀ p fd, (state.procs p).ofile fd = none

def File.IsEnd (file : File) (page : Nat) (writable : Bool) : Prop :=
  file.type = .fdPipe ∧ file.pipe = page ∧ file.writable = writable

def Pipe.isOpen (pipe : Pipe) (writable : Bool) : Bool :=
  if writable then pipe.writeopen else pipe.readopen

structure Counted (ftable : FileSlot → File) (count : FileSlot → Nat) : Prop where
  counted : ∀ f, (ftable f).ref = count f
  idle : ∀ f, (ftable f).ref = 0 → (ftable f).type = .fdNone

/-- A page is a pipe while there is a file for one of its ends; each end has at most one. -/
inductive PageState (allocs frees : Nat) (pipe : Pipe) (isEnd : FileSlot → Bool → Prop) : Prop where
  | free (freed : allocs = frees) (without : ∀ f writable, ¬ isEnd f writable)
  | pipe (inUse : allocs = frees + 1)
      (single : ∀ f g writable, isEnd f writable → isEnd g writable → f = g)
      (someEnd : ∃ f writable, isEnd f writable)
      (flags : ∀ writable, pipe.isOpen writable = true ↔ ∃ f, isEnd f writable)

def Files.page (files : Files) (page : Nat) : Prop :=
  PageState (files.allocs page) (files.frees page) (files.pipes page) fun f writable =>
    (files.ftable f).IsEnd page writable

theorem PageState.congr {allocs frees : Nat} {pipe : Pipe} {isEnd after : FileSlot → Bool → Prop}
    (page : PageState allocs frees pipe isEnd)
    (same : ∀ f writable, after f writable ↔ isEnd f writable) :
    PageState allocs frees pipe after := by
  have equal : after = isEnd := by
    funext f writable
    exact propext (same f writable)
  rw [equal]
  exact page

structure Table (files : Files) (count : FileSlot → Nat) : Prop where
  refs : Counted files.ftable count
  pages : ∀ page, files.page page

variable {files : Files} {count : FileSlot → Nat}

theorem Counted.setFile (refs : Counted files.ftable count) (f : FileSlot) (file : File)
    (idle : file.ref = 0 → file.type = .fdNone) :
    Counted (files.setFile f file).ftable (update count f file.ref) := by
  constructor
  case counted =>
    intro g
    by_cases here : g = f
    · rw [here, setFile_self, update_self]
    · rw [setFile_of_ne files file here, update_of_ne here]
      exact refs.counted g
  case idle =>
    intro g
    by_cases here : g = f
    · rw [here, setFile_self]
      exact idle
    · rw [setFile_of_ne files file here]
      exact refs.idle g

variable {f : FileSlot}

theorem page_setFile {page : Nat} (before : files.page page) {file : File}
    (unchanged : ∀ writable, file.IsEnd page writable ↔ (files.ftable f).IsEnd page writable) :
    (files.setFile f file).page page := by
  apply before.congr
  intro g writable
  by_cases here : g = f
  · rw [here, setFile_self]
    exact unchanged writable
  · rw [setFile_of_ne files file here]

theorem not_end_of_type {file : File} (type : file.type ≠ .fdPipe) (page : Nat)
    (writable : Bool) : ¬ file.IsEnd page writable :=
  fun isEnd => type isEnd.1

section
variable (table : Table files count)
include table

theorem Table.setFile {file : File} (before : (files.ftable f).type ≠ .fdPipe)
    (after : file.type ≠ .fdPipe) (idle : file.ref = 0 → file.type = .fdNone) :
    Table (files.setFile f file) (update count f file.ref) where
  refs := table.refs.setFile f file idle
  pages := fun page => page_setFile (table.pages page) fun writable =>
    iff_of_false (not_end_of_type after page writable) (not_end_of_type before page writable)

theorem Table.setFields {file : File} (before : (files.ftable f).type ≠ .fdPipe)
    (after : file.type ≠ .fdPipe) (same : file.ref = count f)
    (held : 0 < count f) : Table (files.setFile f file) count := by
  have changed := table.setFile before after fun zero => by omega
  rw [same, update_eq_self] at changed
  exact changed

theorem Table.setRef (f : FileSlot) {ref : Nat} (positive : 0 < ref) :
    Table (files.setFile f { files.ftable f with ref := ref }) (update count f ref) where
  refs := table.refs.setFile f _ fun zero => absurd zero positive.ne'
  pages := fun page => page_setFile (table.pages page) fun _ => .rfl

theorem filealloc_spec {after : Files} (found : filealloc files = some (f, after)) :
    count f = 0 ∧ Table after (update count f 1) ∧ (after.ftable f).type = .fdNone ∧
    (∀ g, g ≠ f → after.ftable g = files.ftable g) ∧
    after.allocs = files.allocs ∧ after.frees = files.frees := by
  rw [filealloc] at found
  split at found
  next => cases found
  next slot search =>
    cases found
    have free : (files.ftable f).ref = 0 := by simpa using List.find?_some search
    refine ⟨by rw [← table.refs.counted f, free], table.setRef f Nat.one_pos, ?_, ?_, rfl, rfl⟩
    · rw [setFile_self]
      exact table.refs.idle f free
    · intro g different
      exact setFile_of_ne files _ different

theorem filedup_spec (held : 0 < count f) :
    ∃ after, filedup files f = .ok after ∧ Table after (update count f (count f + 1)) := by
  have refs := table.refs.counted f
  rw [filedup, if_neg (by omega), refs]
  exact ⟨_, rfl, table.setRef f (Nat.succ_pos _)⟩

end

/-- `p->readopen = 0` or `p->writeopen = 0` -/
def Pipe.close (pipe : Pipe) (writable : Bool) : Pipe :=
  if writable then { pipe with writeopen := false } else { pipe with readopen := false }

theorem Pipe.close_self (pipe : Pipe) (writable : Bool) :
    (pipe.close writable).isOpen writable = false := by
  cases writable <;> rfl

theorem Pipe.close_other (pipe : Pipe) (writable : Bool) :
    (pipe.close writable).isOpen (!writable) = pipe.isOpen (!writable) := by
  cases writable <;> rfl

theorem pipeclose_eq (files : Files) (page : Nat) (writable : Bool) :
    pipeclose files page writable =
      let closed := files.setPipe page ((files.pipes page).close writable)
      if (files.pipes page).isOpen (!writable) = false then kfree closed page else closed := by
  cases writable <;> simp [pipeclose, Pipe.close, Pipe.isOpen]

section LastClose
variable {f : FileSlot} {page : Nat} {writable : Bool} {file : File}

theorem PageState.used {allocs frees : Nat} {pipe : Pipe} {isEnd : FileSlot → Bool → Prop}
    (state : PageState allocs frees pipe isEnd) {writable : Bool} (here : isEnd f writable) :
    allocs = frees + 1 ∧ (∀ f g writable, isEnd f writable → isEnd g writable → f = g) ∧
    ∀ writable, pipe.isOpen writable = true ↔ ∃ f, isEnd f writable := by
  cases state with
  | free _ without => exact absurd here (without f writable)
  | pipe inUse single _ flags => exact ⟨inUse, single, flags⟩

theorem page_elsewhere {after : Files} (before : files.page page)
    (ftable : after.ftable = files.ftable) (allocs : after.allocs page = files.allocs page)
    (frees : after.frees page = files.frees page) (pipe : after.pipes page = files.pipes page) :
    after.page page := by
  rw [Files.page, ftable, allocs, frees, pipe]
  exact before

theorem isEnd_setFile (single : ∀ g, (files.ftable g).IsEnd page writable → g = f)
    (isEnd : (files.ftable f).IsEnd page writable) (untyped : file.type ≠ .fdPipe) (g : FileSlot)
    (someEnd : Bool) : ((files.setFile f file).ftable g).IsEnd page someEnd ↔
    someEnd = !writable ∧ (files.ftable g).IsEnd page someEnd := by
  by_cases here : g = f
  · rw [here, setFile_self]
    refine iff_of_false (not_end_of_type untyped page someEnd) ?_
    rintro ⟨rfl, before⟩
    have both := before.2.2.symm.trans isEnd.2.2
    cases writable <;> cases both
  · rw [setFile_of_ne files file here]
    constructor
    · intro other
      refine ⟨?_, other⟩
      by_contra same
      have equal : someEnd = writable := by simpa using same
      rw [equal] at other
      exact here (single g other)
    · exact fun both => both.2

theorem Table.closeEnd (table : Table files count) (isEnd : (files.ftable f).IsEnd page writable)
    (unused : file.ref = 0) (untyped : file.type = .fdNone) :
    Table (pipeclose (files.setFile f file) page writable) (update count f 0) := by
  have notPipe : file.type ≠ .fdPipe := by
    rw [untyped]
    decide
  obtain ⟨inUse, single, flags⟩ := (table.pages page).used isEnd
  have left := isEnd_setFile (fun g other => single g f writable other isEnd) isEnd notPipe
  have refs : Counted (files.setFile f file).ftable (update count f 0) := by
    rw [← unused]
    exact table.refs.setFile f file fun _ => untyped
  -- the other pages do not change
  have others : ∀ other, other ≠ page → (files.setFile f file).page other := by
    intro other different
    apply page_setFile (table.pages other)
    intro someEnd
    refine iff_of_false (not_end_of_type notPipe other someEnd) ?_
    intro before
    exact different (before.2.1.symm.trans isEnd.2.1)
  rw [pipeclose_eq]
  dsimp only
  by_cases last : (files.pipes page).isOpen (!writable) = false
  · rw [if_pos (by exact last)]
    refine ⟨refs, ?_⟩
    intro other
    by_cases same : other = page
    · subst same
      apply PageState.free
      · exact inUse.trans (update_self _ _ files.frees).symm
      · intro g someEnd now
        obtain ⟨rfl, before⟩ := (left g someEnd).mp now
        have set := (flags (!writable)).mpr ⟨g, before⟩
        rw [last] at set
        exact absurd set (by decide)
    · refine page_elsewhere (others other same) rfl rfl ?_ ?_
      · exact update_of_ne same ..
      · exact (update_of_ne same ..).trans (update_of_ne same ..)
  · rw [if_neg (by exact last)]
    have set : (files.pipes page).isOpen (!writable) = true := by simpa using last
    refine ⟨refs, ?_⟩
    intro other
    by_cases same : other = page
    · subst same
      apply PageState.pipe inUse
      · intro g h someEnd atG atH
        exact single g h someEnd ((left g someEnd).mp atG).2 ((left h someEnd).mp atH).2
      · obtain ⟨g, before⟩ := (flags (!writable)).mp set
        exact ⟨g, !writable, (left g _).mpr ⟨rfl, before⟩⟩
      · intro someEnd
        have pipe : ((files.setFile f file).setPipe other
            (((files.setFile f file).pipes other).close writable)).pipes other =
              (files.pipes other).close writable := update_self ..
        rw [pipe]
        by_cases closed : someEnd = writable
        · subst closed
          rw [Pipe.close_self]
          refine iff_of_false (by decide) ?_
          rintro ⟨g, now⟩
          have kept := ((left g someEnd).mp now).1
          cases someEnd <;> cases kept
        · have opposite : someEnd = !writable := by
            cases someEnd <;> cases writable <;> simp_all
          subst opposite
          rw [Pipe.close_other, set]
          refine iff_of_true rfl ?_
          obtain ⟨g, before⟩ := (flags (!writable)).mp set
          exact ⟨g, (left g _).mpr ⟨rfl, before⟩⟩
    · exact page_elsewhere (others other same) rfl rfl rfl (update_of_ne same ..)

end LastClose

theorem fileclose_spec (table : Table files count) (held : 0 < count f) :
    ∃ after, fileclose files f = .ok after ∧ Table after (update count f (count f - 1)) := by
  have refs := table.refs.counted f
  rw [fileclose]
  dsimp only
  rw [if_neg (by omega)]
  by_cases more : 0 < (files.ftable f).ref - 1
  · rw [if_pos more, ← refs]
    exact ⟨_, rfl, table.setRef f more⟩
  · have none : count f - 1 = 0 := by omega
    rw [if_neg more, none]
    cases type : (files.ftable f).type with
    | fdPipe => exact ⟨_, rfl, table.closeEnd ⟨type, rfl, rfl⟩ rfl rfl⟩
    | fdNone =>
      refine ⟨_, rfl, ?_⟩
      apply table.setFile
      · rw [type]
        decide
      · exact FileType.noConfusion
      · exact fun _ => rfl
    | fdInode =>
      refine ⟨_, rfl, ?_⟩
      apply table.setFile
      · rw [type]
        decide
      · exact FileType.noConfusion
      · exact fun _ => rfl

theorem isEnd_opened {f0 f1 : FileSlot} {page : Nat} {readEnd writeEnd : File} (different : f0 ≠ f1)
    (isRead : readEnd.IsEnd page false) (isWrite : writeEnd.IsEnd page true)
    (without : ∀ g someEnd, ¬ (files.ftable g).IsEnd page someEnd) (g : FileSlot) (someEnd : Bool) :
    (((files.setFile f0 readEnd).setFile f1 writeEnd).ftable g).IsEnd page someEnd ↔
    (g = f0 ∧ someEnd = false) ∨ (g = f1 ∧ someEnd = true) := by
  by_cases isSecond : g = f1
  · subst isSecond
    rw [setFile_self]
    constructor
    · intro now
      exact .inr ⟨rfl, now.2.2.symm.trans isWrite.2.2⟩
    · rintro (⟨same, -⟩ | ⟨-, rfl⟩)
      · exact absurd same.symm different
      · exact isWrite
  · rw [setFile_of_ne _ writeEnd isSecond]
    by_cases isFirst : g = f0
    · subst isFirst
      rw [setFile_self]
      constructor
      · intro now
        exact .inl ⟨rfl, now.2.2.symm.trans isRead.2.2⟩
      · rintro (⟨-, rfl⟩ | ⟨same, -⟩)
        · exact isRead
        · exact absurd same isSecond
    · rw [setFile_of_ne files readEnd isFirst]
      refine iff_of_false (without g someEnd) ?_
      rintro (⟨same, -⟩ | ⟨same, -⟩)
      · exact isFirst same
      · exact isSecond same

theorem Table.openPipe (table : Table files count) {f0 f1 : FileSlot} {page : Nat}
    {readEnd writeEnd : File} (different : f0 ≠ f1) (first : (files.ftable f0).type = .fdNone)
    (second : (files.ftable f1).type = .fdNone) (freed : files.allocs page = files.frees page)
    (isRead : readEnd.IsEnd page false) (isWrite : writeEnd.IsEnd page true)
    (readRef : readEnd.ref = count f0) (writeRef : writeEnd.ref = count f1)
    (readHeld : 0 < count f0) (writeHeld : 0 < count f1) :
    Table (({ files.setPipe page ⟨true, true⟩ with
        allocs := update files.allocs page (files.allocs page + 1) }.setFile f0
          readEnd).setFile f1 writeEnd) count := by
  generalize opened : { files.setPipe page ⟨true, true⟩ with
    allocs := update files.allocs page (files.allocs page + 1) } = fresh
  have ftable : fresh.ftable = files.ftable := by rw [← opened]; rfl
  have notFirst : (fresh.ftable f0).type ≠ .fdPipe := by
    rw [ftable, first]
    decide
  have notSecond : ((fresh.setFile f0 readEnd).ftable f1).type ≠ .fdPipe := by
    rw [setFile_of_ne fresh readEnd different.symm, ftable, second]
    decide
  constructor
  case refs =>
    have refs : Counted fresh.ftable count := ftable ▸ table.refs
    have one := refs.setFile f0 readEnd fun zero => by omega
    rw [readRef, update_eq_self] at one
    have two := one.setFile f1 writeEnd fun zero => by omega
    rw [writeRef, update_eq_self] at two
    exact two
  case pages =>
    intro other
    by_cases same : other = page
    · subst same
      have without : ∀ g someEnd, ¬ (fresh.ftable g).IsEnd other someEnd := by
        intro g someEnd isEnd
        rw [ftable] at isEnd
        have inUse := ((table.pages other).used isEnd).1
        omega
      have allocs : fresh.allocs other = files.allocs other + 1 := by
        rw [← opened]
        exact update_self ..
      have frees : fresh.frees = files.frees := by
        rw [← opened]
        rfl
      have pipe : fresh.pipes other = ⟨true, true⟩ := by
        rw [← opened]
        exact update_self ..
      apply PageState.congr (PageState.pipe _ _ _ _)
        (isEnd_opened different isRead isWrite without)
      · exact allocs.trans (by rw [freed]; exact congrArg (· other + 1) frees.symm)
      · rintro g h someEnd (⟨rfl, atG⟩ | ⟨rfl, atG⟩) (⟨rfl, atH⟩ | ⟨rfl, atH⟩)
        · rfl
        · rw [atG] at atH
          cases atH
        · rw [atG] at atH
          cases atH
        · rfl
      · exact ⟨f0, false, .inl ⟨rfl, rfl⟩⟩
      · intro someEnd
        have isOpen : (fresh.pipes other).isOpen someEnd = true := by
          rw [pipe]
          cases someEnd <;> rfl
        refine iff_of_true isOpen ?_
        cases someEnd with
        | false => exact ⟨f0, .inl ⟨rfl, rfl⟩⟩
        | true => exact ⟨f1, .inr ⟨rfl, rfl⟩⟩
    · have before : fresh.page other := by
        rw [← opened]
        exact page_elsewhere (table.pages other) rfl (update_of_ne same ..) rfl
          (update_of_ne same ..)
      have one : (fresh.setFile f0 readEnd).page other := by
        apply page_setFile before
        intro someEnd
        refine iff_of_false ?_ (not_end_of_type notFirst other someEnd)
        exact fun now => same (now.2.1.symm.trans isRead.2.1)
      apply page_setFile one
      intro someEnd
      refine iff_of_false ?_ (not_end_of_type notSecond other someEnd)
      exact fun now => same (now.2.1.symm.trans isWrite.2.1)

theorem close_both {f0 f1 : FileSlot} (different : f0 ≠ f1) (free0 : count f0 = 0)
    (free1 : count f1 = 0) (table : Table files (update (update count f0 1) f1 1)) :
    ∃ middle after, fileclose files f0 = .ok middle ∧ fileclose middle f1 = .ok after ∧
    Table after count := by
  have held0 : update (update count f0 1) f1 1 f0 = 1 := by
    rw [update_of_ne different, update_self]
  obtain ⟨middle, first, one⟩ := fileclose_spec table (f := f0) (by omega)
  rw [held0, Nat.sub_self, update_comm different.symm, update_idem, ← free0, update_eq_self] at one
  obtain ⟨after, second, two⟩ := fileclose_spec one (f := f1)
    (by rw [update_self]; exact Nat.one_pos)
  rw [update_self, Nat.sub_self, update_idem, ← free1, update_eq_self] at two
  exact ⟨middle, after, first, second, two⟩

theorem pipealloc_spec (table : Table files count) {page : Option Nat}
    (freed : ∀ page' ∈ page, files.allocs page' = files.frees page') :
    ∃ pair after, pipealloc files page = .ok (pair, after) ∧
      match pair with
      | none => Table after count
      | some (f0, f1) => count f0 = 0 ∧ count f1 = 0 ∧ f0 ≠ f1 ∧
          Table after (update (update count f0 1) f1 1) := by
  rw [pipealloc]
  cases first : filealloc files with
  | none => exact ⟨none, files, rfl, table⟩
  | some result =>
    obtain ⟨f0, one⟩ := result
    obtain ⟨free0, oneTable, type0, -, allocs1, frees1⟩ := filealloc_spec table first
    have back : update (update count f0 1) f0 0 = count := by
      rw [update_idem, ← free0, update_eq_self]
    dsimp only
    cases second : filealloc one with
    | none =>
      obtain ⟨after, closed, kept⟩ := fileclose_spec oneTable (f := f0)
        (by rw [update_self]; exact Nat.one_pos)
      rw [update_self, back] at kept
      dsimp only
      rw [closed]
      exact ⟨none, after, rfl, kept⟩
    | some result =>
      obtain ⟨f1, two⟩ := result
      obtain ⟨free1, twoTable, type1, others, allocs2, frees2⟩ := filealloc_spec oneTable second
      have different : f0 ≠ f1 := by
        rintro rfl
        rw [update_self] at free1
        cases free1
      rw [update_of_ne different.symm] at free1
      dsimp only
      cases page with
      | none =>
        obtain ⟨middle, after, closed0, closed1, kept⟩ :=
          close_both different free0 free1 twoTable
        dsimp only
        rw [closed0, ok_bind, closed1]
        exact ⟨none, after, rfl, kept⟩
      | some page =>
        have notPipe := freed page rfl
        rw [← allocs1, ← frees1, ← allocs2, ← frees2] at notPipe
        have untyped : (two.ftable f0).type = .fdNone := by
          rw [others f0 different]
          exact type0
        have held0 : update (update count f0 1) f1 1 f0 = 1 := by
          rw [update_of_ne different, update_self]
        have held1 : update (update count f0 1) f1 1 f1 = 1 := update_self ..
        refine ⟨some (f0, f1), _, rfl, free0, free1, different, ?_⟩
        apply twoTable.openPipe different untyped type1 notPipe
        · exact ⟨rfl, rfl, rfl⟩
        · exact ⟨rfl, rfl, rfl⟩
        · exact twoTable.refs.counted f0
        · rw [setFile_of_ne _ _ different.symm]
          exact twoTable.refs.counted f1
        · omega
        · omega

def slots (procs : Pid → Proc) (f : FileSlot) : Nat :=
  refs Finset.univ (fun place : Pid × Fd => (procs place.1).ofile place.2) f

variable {state : State} {p : Pid} {fd : Fd} {f : FileSlot}

theorem setFd_self (file : Option FileSlot) :
    ((state.setFd p fd file).procs p).ofile fd = file := by
  simp [State.setFd, State.setProc]

theorem setFd_of_ne (file : Option FileSlot) {q : Pid} {other : Fd} (different : (q, other) ≠ (p, fd)) :
    ((state.setFd p fd file).procs q).ofile other = (state.procs q).ofile other := by
  by_cases same : q = p
  · subst same
    have descriptor : other ≠ fd := fun equal => different (by rw [equal])
    simp [State.setFd, State.setProc, descriptor]
  · simp [State.setFd, State.setProc, same]

theorem setFd_state (file : Option FileSlot) (q : Pid) :
    ((state.setFd p fd file).procs q).state = (state.procs q).state := by
  by_cases same : q = p
  · subst same
    simp [State.setFd, State.setProc]
  · simp [State.setFd, State.setProc, same]

theorem slots_setFd (state : State) (p : Pid) (fd : Fd) (file : Option FileSlot) (g : FileSlot) :
    slots (state.setFd p fd file).procs g + share ((state.procs p).ofile fd) g =
    slots state.procs g + share file g := by
  have moved : slots (state.setFd p fd file).procs g + share ((state.procs p).ofile fd) g =
      slots state.procs g + share (((state.setFd p fd file).procs p).ofile fd) g :=
    refs_change (Finset.mem_univ (p, fd)) fun other _ different => setFd_of_ne file different
  rw [setFd_self] at moved
  exact moved

theorem share_none (g : FileSlot) : share none g = 0 := if_neg (by simp)

theorem share_self (g : FileSlot) : share (some g) g = 1 := if_pos rfl

theorem share_of_ne {g : FileSlot} (different : g ≠ f) : share (some f) g = 0 :=
  if_neg fun same => different (Option.some.inj same).symm

theorem slots_give (empty : (state.procs p).ofile fd = none) (f : FileSlot) :
    slots (state.setFd p fd (some f)).procs =
    update (slots state.procs) f (slots state.procs f + 1) := by
  funext g
  have moved := slots_setFd state p fd (some f) g
  rw [empty, share_none] at moved
  by_cases same : g = f
  · subst same
    rw [share_self] at moved
    rw [update_self]
    omega
  · rw [share_of_ne same] at moved
    rw [update_of_ne same]
    omega

theorem slots_take (held : (state.procs p).ofile fd = some f) :
    slots (state.setFd p fd none).procs =
    update (slots state.procs) f (slots state.procs f - 1) := by
  funext g
  have moved := slots_setFd state p fd none g
  rw [held, share_none] at moved
  by_cases same : g = f
  · subst same
    rw [share_self] at moved
    rw [update_self]
    omega
  · rw [share_of_ne same] at moved
    rw [update_of_ne same]
    omega

theorem slots_pos (held : (state.procs p).ofile fd = some f) : 0 < slots state.procs f := by
  rw [slots]
  apply refs_pos (Finset.mem_univ (p, fd))
  exact held

theorem argfd_spec {fd : Int} {descriptor : Fd} (found : argfd state p fd = some (descriptor, f)) :
    (state.procs p).ofile descriptor = some f := by
  rw [argfd] at found
  split at found
  next =>
    obtain ⟨file, held, same⟩ := Option.map_eq_some_iff.mp found
    cases same
    exact held
  next => cases found

theorem fdalloc_spec {after : State} (found : fdalloc state p f = some (fd, after)) :
    (state.procs p).ofile fd = none ∧ after = state.setFd p fd (some f) := by
  rw [fdalloc] at found
  split at found
  next => cases found
  next slot search =>
    cases found
    exact ⟨by simpa using List.find?_some search, rfl⟩

def Idle (procs : Pid → Proc) : Prop :=
  ∀ p, (procs p).state ≠ .runnable → ∀ fd, (procs p).ofile fd = none

structure Accounts (state : State) : Prop where
  table : Table state.files (slots state.procs)
  idle : Idle state.procs

theorem Accounts.withTable (accounts : Accounts state) {files : Files}
    (table : Table files (slots state.procs)) : Accounts { state with files := files } :=
  ⟨table, accounts.idle⟩

theorem idle_setFd (idle : Idle state.procs) (running : (state.procs p).state = .runnable)
    (file : Option FileSlot) : Idle (state.setFd p fd file).procs := by
  intro q stopped other
  rw [setFd_state] at stopped
  have different : (q, other) ≠ (p, fd) := by
    intro same
    rw [(Prod.mk.inj same).1] at stopped
    exact stopped running
  rw [setFd_of_ne file different]
  exact idle q stopped other

abbrev Keeps (answer : Answer) : Prop :=
  Yields answer (fun result => Accounts result.2) (fun reason => reason = .initExiting)

section
variable (accounts : Accounts state) (running : (state.procs p).state = .runnable)
include accounts running

theorem sysDup_keeps (fd : Int) : Keeps (sysDup state p fd) := by
  rw [sysDup]
  cases argument : argfd state p fd with
  | none => exact accounts
  | some result =>
    obtain ⟨source, f⟩ := result
    have held := argfd_spec argument
    dsimp only
    cases allocated : fdalloc state p f with
    | none => exact accounts
    | some result =>
      obtain ⟨target, after⟩ := result
      obtain ⟨empty, rfl⟩ := fdalloc_spec allocated
      obtain ⟨files, dup, table⟩ := filedup_spec accounts.table (slots_pos held)
      have dup : filedup (state.setFd p target (some f)).files f = .ok files := dup
      dsimp only
      rw [dup, ok_bind]
      refine ⟨?_, idle_setFd accounts.idle running (some f)⟩
      rw [← slots_give empty f] at table
      exact table

theorem sysClose_keeps (fd : Int) : Keeps (sysClose state p fd) := by
  rw [sysClose]
  cases argument : argfd state p fd with
  | none => exact accounts
  | some result =>
    obtain ⟨descriptor, f⟩ := result
    have held := argfd_spec argument
    obtain ⟨files, closed, table⟩ := fileclose_spec accounts.table (slots_pos held)
    have closed : fileclose (state.setFd p descriptor none).files f = .ok files := closed
    dsimp only
    rw [closed, ok_bind]
    refine ⟨?_, idle_setFd accounts.idle running none⟩
    rw [← slots_take held] at table
    exact table

theorem sysOpen_keeps (ip : Option Nat) (omode : Nat) : Keeps (sysOpen state p ip omode) := by
  cases ip with
  | none => exact accounts
  | some ip =>
    rw [sysOpen]
    cases allocated : filealloc state.files with
    | none => exact accounts
    | some result =>
      obtain ⟨f, files⟩ := result
      obtain ⟨free, table, untyped, -⟩ := filealloc_spec accounts.table allocated
      dsimp only
      cases descriptor : fdalloc { state with files := files } p f with
      | none =>
        obtain ⟨after, closed, kept⟩ := fileclose_spec table (f := f)
          (by rw [update_self]; exact Nat.one_pos)
        rw [update_self, Nat.sub_self, update_idem, ← free, update_eq_self] at kept
        dsimp only
        rw [closed, ok_bind]
        exact accounts.withTable kept
      | some result =>
        obtain ⟨fd, after⟩ := result
        obtain ⟨empty, rfl⟩ := fdalloc_spec descriptor
        have given := slots_give empty f
        dsimp only at given
        rw [free] at given
        refine ⟨?_, idle_setFd accounts.idle running (some f)⟩
        rw [← given] at table
        refine table.setFields ?_ FileType.noConfusion (table.refs.counted f) ?_
        · rw [untyped]
          decide
        · rw [given, update_self]
          exact Nat.one_pos

theorem sysPipe_keeps (valid : Bool) {page : Option Nat}
    (freed : ∀ page' ∈ page, state.files.allocs page' = state.files.frees page') :
    Keeps (sysPipe state p valid page) := by
  rw [sysPipe]
  split
  next => exact accounts
  next =>
    obtain ⟨pair, files, returned, table⟩ := pipealloc_spec accounts.table freed
    rw [returned, ok_bind]
    dsimp only
    cases pair with
    | none => exact accounts.withTable table
    | some pair =>
      obtain ⟨rf, wf⟩ := pair
      obtain ⟨free0, free1, different, table⟩ := table
      obtain ⟨middle, closed, first, second, kept⟩ := close_both different free0 free1 table
      dsimp only
      cases descriptor : fdalloc { state with files := files } p rf with
      | none =>
        dsimp only
        rw [first, ok_bind, second, ok_bind]
        exact accounts.withTable kept
      | some result =>
        obtain ⟨fd0, one⟩ := result
        obtain ⟨empty0, rfl⟩ := fdalloc_spec descriptor
        have given0 := slots_give empty0 rf
        dsimp only
        cases another : fdalloc (State.setFd { state with files := files } p fd0 (some rf)) p wf with
        | none =>
          have restored : slots ((State.setFd { state with files := files } p fd0
              (some rf)).setFd p fd0 none).procs = slots state.procs := by
            rw [slots_take (setFd_self (some rf)), given0, update_self,
              Nat.add_sub_cancel, update_idem, update_eq_self]
          have first : fileclose ((State.setFd { state with files := files } p fd0
              (some rf)).setFd p fd0 none).files rf = .ok middle := first
          dsimp only
          rw [first, ok_bind, second, ok_bind]
          rw [← restored] at kept
          refine ⟨kept, idle_setFd ?_ ?_ none⟩
          · exact idle_setFd accounts.idle running (some rf)
          · rw [setFd_state]
            exact running
        | some result =>
          obtain ⟨fd1, two⟩ := result
          obtain ⟨empty1, rfl⟩ := fdalloc_spec another
          have given1 := slots_give empty1 wf
          rw [given0, free0, update_of_ne different.symm, free1] at given1
          rw [← given1] at table
          refine ⟨table, idle_setFd ?_ ?_ (some wf)⟩
          · exact idle_setFd accounts.idle running (some rf)
          · rw [setFd_state]
            exact running

end

theorem setState_ofile (q : Pid) (procState : ProcState) (other : Pid) (fd : Fd) :
    ((state.setProc q { state.procs q with state := procState }).procs other).ofile fd =
      (state.procs other).ofile fd := by
  by_cases same : other = q
  · subst same
    simp [State.setProc]
  · simp [State.setProc, same]

theorem slots_setState (q : Pid) (procState : ProcState) :
    slots (state.setProc q { state.procs q with state := procState }).procs =
      slots state.procs := by
  funext g
  rw [slots, slots]
  apply refs_congr
  intro place _
  exact setState_ofile q procState place.1 place.2

theorem idle_setState {q : Pid} {procState : ProcState}
    (others : ∀ other, other ≠ q → (state.procs other).state ≠ .runnable →
      ∀ fd, (state.procs other).ofile fd = none)
    (itself : procState ≠ .runnable → ∀ fd, (state.procs q).ofile fd = none) :
    Idle (state.setProc q { state.procs q with state := procState }).procs := by
  intro other stopped fd
  rw [setState_ofile]
  by_cases same : other = q
  · subst same
    apply itself
    simpa [State.setProc] using stopped
  · apply others other same
    simpa [State.setProc, same] using stopped

/-- While `fork` copies the descriptors: the child has none of those to come. -/
structure Copying (np : Pid) (rest : List Fd) (state : State) : Prop where
  table : Table state.files (slots state.procs)
  idle : ∀ q, q ≠ np → (state.procs q).state ≠ .runnable →
    ∀ fd, (state.procs q).ofile fd = none
  fresh : ∀ fd ∈ rest, (state.procs np).ofile fd = none
  once : rest.Nodup

theorem forkFd_keeps {np : Pid} {rest : List Fd} (copying : Copying np (fd :: rest) state) :
    Yields (forkFd p np state fd) (Copying np rest) (fun reason => reason = .initExiting) := by
  obtain ⟨table, idle, fresh, once⟩ := copying
  obtain ⟨notLater, once⟩ := List.nodup_cons.mp once
  have later : ∀ other ∈ rest, (state.procs np).ofile other = none :=
    fun other member => fresh other (.tail fd member)
  rw [forkFd]
  cases held : (state.procs p).ofile fd with
  | none => exact ⟨table, idle, later, once⟩
  | some f =>
    obtain ⟨files, dup, kept⟩ := filedup_spec table (slots_pos held)
    have given := slots_give (fresh fd (.head _)) f
    dsimp only
    rw [dup, ok_bind]
    rw [← given] at kept
    refine ⟨kept, ?_, ?_, once⟩
    · intro q notChild stopped other
      rw [setFd_state] at stopped
      rw [setFd_of_ne]
      · exact idle q notChild stopped other
      · exact fun same => notChild (Prod.mk.inj same).1
    · intro other member
      rw [setFd_of_ne]
      · exact later other member
      · intro same
        rw [(Prod.mk.inj same).2] at member
        exact notLater member

theorem fork_keeps (accounts : Accounts state) (copied : Bool) : Keeps (fork state p copied) := by
  rw [fork]
  cases search : (List.finRange nproc).find? fun np =>
      decide ((state.procs np).state = .unused) with
  | none => exact accounts
  | some np =>
    dsimp only
    split
    next => exact accounts
    next =>
      have unused : (state.procs np).state = .unused := by simpa using List.find?_some search
      have empty := accounts.idle np (by rw [unused]; decide)
      have copying : Copying np (List.finRange nofile) state :=
        ⟨accounts.table, fun q _ => accounts.idle q, fun fd _ => empty fd, List.nodup_finRange _⟩
      apply Yields.bind (Yields.fold (Copying np) _ copying
        (fun fd rest before => forkFd_keeps) fun after done => done)
      intro after done
      refine ⟨?_, idle_setState done.idle fun stopped => absurd rfl stopped⟩
      change Table after.files _
      rw [slots_setState]
      exact done.table

structure Closing (p : Pid) (rest : List Fd) (state : State) : Prop where
  accounts : Accounts state
  running : (state.procs p).state = .runnable
  closed : ∀ fd, fd ∉ rest → (state.procs p).ofile fd = none

theorem exitFd_keeps {rest : List Fd} (closing : Closing p (fd :: rest) state) :
    Yields (exitFd p state fd) (Closing p rest) (fun reason => reason = .initExiting) := by
  obtain ⟨accounts, running, closed⟩ := closing
  rw [exitFd]
  cases held : (state.procs p).ofile fd with
  | none =>
    refine ⟨accounts, running, ?_⟩
    intro other notLater
    by_cases same : other = fd
    · rw [same]
      exact held
    · apply closed
      simp [same, notLater]
  | some f =>
    obtain ⟨files, done, table⟩ := fileclose_spec accounts.table (slots_pos held)
    have taken := slots_take held
    dsimp only
    rw [done, ok_bind]
    rw [← taken] at table
    refine ⟨⟨table, ?_⟩, ?_, ?_⟩
    · exact @idle_setFd { state with files := files } p fd accounts.idle running none
    · rw [setFd_state]
      exact running
    · intro other notLater
      by_cases same : other = fd
      · rw [same, setFd_self]
      · rw [setFd_of_ne]
        · apply closed
          simp [same, notLater]
        · exact fun equal => same (Prod.mk.inj equal).2

theorem exit_keeps (accounts : Accounts state) (running : (state.procs p).state = .runnable) :
    Keeps (exit state p) := by
  rw [exit]
  split
  next => exact rfl
  next =>
    have closing : Closing p (List.finRange nofile) state :=
      ⟨accounts, running, fun fd absent => absurd (List.mem_finRange fd) absent⟩
    apply Yields.bind (Yields.fold (Closing p) _ closing
      (fun fd rest before => exitFd_keeps) fun after done => done)
    intro after done
    refine ⟨?_, idle_setState (fun other _ => done.accounts.idle other)
      fun _ fd => done.closed fd List.not_mem_nil⟩
    change Table after.files _
    rw [slots_setState]
    exact done.accounts.table

theorem wait_keeps (accounts : Accounts state) (child : Pid) : Keeps (wait state child) := by
  rw [wait]
  split
  next zombie =>
    refine ⟨?_, idle_setState (fun other _ => accounts.idle other) fun _ => ?_⟩
    · change Table state.files _
      rw [slots_setState]
      exact accounts.table
    · apply accounts.idle
      rw [zombie]
      decide
  next => exact accounts

theorem perform_keeps (accounts : Accounts state) {call : Call}
    (permitted : Permitted state call) : Keeps (perform state call) := by
  obtain ⟨running, freed⟩ := permitted
  cases call with
  | openFile p ip omode => exact sysOpen_keeps accounts running ip omode
  | dup p fd => exact sysDup_keeps accounts running fd
  | close p fd => exact sysClose_keeps accounts running fd
  | pipe p valid page => exact sysPipe_keeps accounts running valid freed
  | fork p copied => exact fork_keeps accounts copied
  | exit p => exact exit_keeps accounts running
  | wait p child => exact wait_keeps accounts child

def Files.HasEnd (files : Files) (page : Nat) (writable : Bool) : Prop :=
  ∃ f, 0 < (files.ftable f).ref ∧ (files.ftable f).IsEnd page writable

/-- A page that has been handed out for a pipe once more than it has been freed is a pipe
now. Pages are freed when no open file is an end of theirs, and only then. -/
structure Accounted (state : State) : Prop where
  counted : ∀ f, (state.files.ftable f).ref = slots state.procs f
  pages : ∀ page,
    state.files.allocs page = state.files.frees page ∧
        ¬ state.files.HasEnd page false ∧ ¬ state.files.HasEnd page true ∨
      state.files.allocs page = state.files.frees page + 1 ∧
        (state.files.HasEnd page false ∨ state.files.HasEnd page true) ∧
        ((state.files.pipes page).readopen = true ↔ state.files.HasEnd page false) ∧
        ((state.files.pipes page).writeopen = true ↔ state.files.HasEnd page true)

theorem Table.hasEnd_iff (table : Table files count) (page : Nat) (writable : Bool) :
    files.HasEnd page writable ↔ ∃ f, (files.ftable f).IsEnd page writable := by
  constructor
  · rintro ⟨f, -, isEnd⟩
    exact ⟨f, isEnd⟩
  · rintro ⟨f, isEnd⟩
    refine ⟨f, Nat.pos_of_ne_zero ?_, isEnd⟩
    intro zero
    have type := table.refs.idle f zero
    rw [isEnd.1] at type
    cases type

theorem Accounts.accounted (accounts : Accounts state) : Accounted state where
  counted := accounts.table.refs.counted
  pages page := by
    have hasEnd := accounts.table.hasEnd_iff page
    cases accounts.table.pages page with
    | free freed without =>
      left
      rw [hasEnd, hasEnd]
      exact ⟨freed, fun ⟨f, isEnd⟩ => without f false isEnd,
        fun ⟨f, isEnd⟩ => without f true isEnd⟩
    | pipe inUse _ someEnd flags =>
      right
      rw [hasEnd, hasEnd]
      refine ⟨inUse, ?_, flags false, flags true⟩
      obtain ⟨f, writable, isEnd⟩ := someEnd
      cases writable with
      | false => exact .inl ⟨f, isEnd⟩
      | true => exact .inr ⟨f, isEnd⟩

theorem Start.accounts (start : Start state) : Accounts state := by
  have empty : slots state.procs = fun _ => 0 := by
    funext f
    rw [slots]
    apply refs_zero
    intro place _
    rw [start.procs]
    simp
  refine ⟨⟨⟨?_, fun f _ => (start.files f).2⟩, ?_⟩, fun p _ => start.procs p⟩
  · intro f
    rw [empty]
    exact (start.files f).1
  · intro page
    obtain ⟨allocs, frees⟩ := start.pages page
    apply PageState.free (allocs.trans frees.symm)
    intro f writable
    apply not_end_of_type
    rw [(start.files f).2]
    decide

theorem step_keeps (before : State) (call : Call) (after : State) (accounts : Accounts before)
    (permitted : Permitted before call) (taken : step before call = some after) :
    Accounts after := by
  have keeps := perform_keeps accounts permitted
  rw [step] at taken
  split at taken
  next value returned =>
    cases taken
    exact keeps.of_ok returned
  next => cases taken

/-- After every sequence of calls the files and pipes are accounted for, and the next call
does not panic over them. -/
theorem open_files_accounted {start state : State} (initial : Start start)
    (reached : Reaches step Permitted start state) :
    Accounted state ∧ ∀ call, Permitted state call →
      perform state call ≠ .error .filedup ∧ perform state call ≠ .error .fileclose := by
  have accounts := reaches_invariant Accounts initial.accounts step_keeps reached
  refine ⟨accounts.accounted, ?_⟩
  intro call permitted
  have keeps := perform_keeps accounts permitted
  refine ⟨fun stopped => ?_, fun stopped => ?_⟩
  · exact absurd (keeps.of_error stopped) (by decide)
  · exact absurd (keeps.of_error stopped) (by decide)

def booted : State where
  files :=
    { ftable := fun _ => ⟨.fdNone, 0, false, false, 0, 0, 0⟩
      pipes := fun _ => ⟨true, true⟩
      allocs := fun _ => 0
      frees := fun _ => 0 }
  procs := fun p => ⟨if p = 0 then .runnable else .unused, fun _ => none⟩
  initproc := 0

/-- The child keeps the read end and the parent the write end; then the child exits. -/
def pipeToChild : List Call :=
  [.openFile 0 (some 7) 2, .dup 0 0, .pipe 0 true (some 4096), .fork 0 true, .close 1 3,
    .close 0 2, .exit 1, .wait 0 1]

theorem pipe_to_child_accounted :
    ∃ state, Reaches step Permitted booted state ∧ state.files.pipes 4096 = ⟨false, true⟩ ∧
      state.files.frees 4096 = 0 ∧ Accounted state := by
  obtain ⟨state, reached, shape⟩ := exists_of_checked_run step booted Permitted pipeToChild
    (fun state => state.files.pipes 4096 = ⟨false, true⟩ ∧ state.files.frees 4096 = 0)
    (by decide +kernel)
  obtain ⟨pipe, frees⟩ := of_decide_eq_true shape
  have initial : Start booted := ⟨fun _ => ⟨rfl, rfl⟩, fun _ => ⟨rfl, rfl⟩, fun _ _ => rfl⟩
  exact ⟨state, reached, pipe, frees, (open_files_accounted initial reached).1⟩

/-- Descriptors name open files, dead processes have none, and closed files have no type. -/
theorem descriptors_live {start state : State} (initial : Start start)
    (reached : Reaches step Permitted start state) :
    (∀ p fd f, (state.procs p).ofile fd = some f →
        (state.procs p).state = .runnable ∧ 0 < (state.files.ftable f).ref) ∧
      ∀ f, (state.files.ftable f).ref = 0 → (state.files.ftable f).type = .fdNone := by
  have accounts := reaches_invariant Accounts initial.accounts step_keeps reached
  refine ⟨?_, accounts.table.refs.idle⟩
  intro p fd f named
  constructor
  · by_contra dead
    rw [accounts.idle p dead fd] at named
    cases named
  · rw [accounts.table.refs.counted f]
    exact slots_pos named

theorem opened_descriptor_live : ∃ state, Reaches step Permitted booted state ∧
    (state.procs 0).ofile 0 = some 0 ∧ 0 < (state.files.ftable 0).ref := by
  obtain ⟨state, reached, named⟩ := exists_of_checked_run step booted Permitted
    [.openFile 0 (some 7) 2] (fun state => (state.procs 0).ofile 0 = some 0) (by decide +kernel)
  have initial : Start booted := ⟨fun _ => ⟨rfl, rfl⟩, fun _ => ⟨rfl, rfl⟩, fun _ _ => rfl⟩
  have named := of_decide_eq_true named
  exact ⟨state, reached, named, ((descriptors_live initial reached).1 0 0 0 named).2⟩

end Xv6Hacks.OpenFiles
