import Xv6Hacks.GuardedRuns
import Xv6Hacks.ProcTable

/-!
# The life of a process

`fork`, `exit`, `wait` and `kill` over the table of `ProcTable`, now with the two
sections of `fork` under `ptable.lock` as separate steps and the work between them in
steps of its own, so that everything else can happen while a child is still an embryo.
Kernel stacks and page directories are numbered by their allocation; what has been freed
and which pids `fork` and `wait` have returned is recorded.
-/

namespace Xv6Hacks.ProcessLifecycle

open Function
open Xv6Hacks.ProcTable hiding step Action

/-- How far the caller of `fork` has come: the child has its pid, its kernel stack, or
its page directory and its parent. -/
inductive Phase where
  | named
  | stacked
  | spaced
  deriving DecidableEq, Repr

structure Reap where
  pid : Int
  kstack : Nat
  pgdir : Nat
  deriving DecidableEq, Repr

structure State where
  table : Ptable
  /-- The child of a process that is inside `fork`. -/
  forking : Slot → Option (Slot × Phase)
  kstack : Slot → Nat
  pgdir : Slot → Nat
  /-- The next allocation; a null pointer is 0. -/
  nextPage : Nat
  /-- The calls of `fork` that have passed the first section. -/
  forks : Nat
  forked : List Int
  exited : List Int
  reaps : List Reap
  freedStacks : List Nat
  freedDirs : List Nat

inductive Action where
  /-- The section of `allocproc`. -/
  | allocproc (p : Slot)
  /-- `kalloc` fails for the kernel stack. -/
  | noStack (p : Slot)
  | stack (p : Slot)
  /-- `cowuvm` or `copyuvm` fails. -/
  | noSpace (p : Slot)
  /-- `np->pgdir` and `np->parent` are set. -/
  | space (p : Slot)
  /-- `np->state = RUNNABLE`, and `fork` returns. -/
  | runnable (p : Slot)
  | exit (p : Slot)
  /-- One pass of the loop of `wait`. -/
  | wait (p : Slot)
  | kill (pid : Int)
  | sleep (p : Slot) (address : Nat)
  | wakeup (address : Nat)
  | yield (p : Slot)
  | dispatch (p : Slot)
  deriving DecidableEq, Repr

def zombieChild (t : Ptable) (p : Slot) : Option Slot :=
  (List.finRange nproc).find? fun slot =>
    (t.proc slot).parent = some p ∧ (t.proc slot).state = .zombie

def setForking (s : State) (p : Slot) (child : Option (Slot × Phase)) : State :=
  { s with forking := update s.forking p child }

def running (s : State) (p : Slot) : Prop := (s.table.proc p).state = .running

instance (s : State) (p : Slot) : Decidable (running s p) := inferInstanceAs (Decidable (_ = _))

def allocSection (s : State) (p np : Slot) : State :=
  { setForking s p (some (np, .named)) with
    table := { setProc s.table np
        { s.table.proc np with state := .embryo, pid := s.table.nextpid } with
      nextpid := wrapInt (s.table.nextpid + 1) }
    forks := s.forks + 1 }

/-- The child is given up: `np->state = UNUSED`. -/
def giveUp (s : State) (p np : Slot) : State :=
  { setForking s p none with
    table := setProc s.table np { s.table.proc np with state := .unused } }

def giveStack (s : State) (p np : Slot) : State :=
  { setForking s p (some (np, .stacked)) with
    table := buyTickets s.table (some p) np
    kstack := update s.kstack np s.nextPage
    nextPage := s.nextPage + 1 }

def freeStack (s : State) (np : Slot) : State :=
  { s with
    freedStacks := s.kstack np :: s.freedStacks
    kstack := update s.kstack np 0 }

def giveSpace (s : State) (p np : Slot) : State :=
  { setForking s p (some (np, .spaced)) with
    table := setProc s.table np { s.table.proc np with parent := some p }
    pgdir := update s.pgdir np s.nextPage
    nextPage := s.nextPage + 1 }

def startChild (s : State) (p np : Slot) : State :=
  { setForking s p none with
    table := setProc s.table np { s.table.proc np with state := .runnable }
    forked := (s.table.proc np).pid :: s.forked }

def reapChild (s : State) (p child : Slot) : State :=
  { freeStack s child with
    table := (wait s.table p).2
    freedDirs := s.pgdir child :: s.freedDirs
    reaps := { pid := (s.table.proc child).pid, kstack := s.kstack child,
               pgdir := s.pgdir child } :: s.reaps }

/-- A process inside `fork` makes no other call, but the timer may take the processor
from it. -/
def step (s : State) : Action → Option State
  | .allocproc p =>
    if running s p ∧ s.forking p = none then
      match findUnused s.table with
      | none => some s
      | some np => some (allocSection s p np)
    else none
  | .noStack p =>
    match s.forking p with
    | some (np, .named) => if running s p then some (giveUp s p np) else none
    | _ => none
  | .stack p =>
    match s.forking p with
    | some (np, .named) => if running s p then some (giveStack s p np) else none
    | _ => none
  | .noSpace p =>
    match s.forking p with
    | some (np, .stacked) =>
      if running s p then some (giveUp (freeStack s np) p np) else none
    | _ => none
  | .space p =>
    match s.forking p with
    | some (np, .stacked) => if running s p then some (giveSpace s p np) else none
    | _ => none
  | .runnable p =>
    match s.forking p with
    | some (np, .spaced) => if running s p then some (startChild s p np) else none
    | _ => none
  | .exit p =>
    if running s p ∧ s.forking p = none then
      (exit s.table p).map fun table =>
        { s with table := table, exited := (s.table.proc p).pid :: s.exited }
    else none
  | .wait p =>
    if running s p ∧ s.forking p = none then
      match zombieChild s.table p with
      | some child => some (reapChild s p child)
      | none => some { s with table := (wait s.table p).2 }
    else none
  | .kill pid => some { s with table := (kill s.table pid).2 }
  | .sleep p address =>
    if running s p ∧ s.forking p = none then
      some { s with table := sleep s.table p (.address address) }
    else none
  | .wakeup address => some { s with table := wakeup1 s.table (some (.address address)) }
  | .yield p => if running s p then some { s with table := yield s.table p } else none
  | .dispatch p =>
    if (s.table.proc p).state = .runnable then some { s with table := dispatch s.table p }
    else none

/-- After `userinit`: the first process has a kernel stack and a page directory. -/
def boot : State where
  table := userinit
  forking := fun _ => none
  kstack := update (fun _ => 0) userinit.initproc 1
  pgdir := update (fun _ => 0) userinit.initproc 2
  nextPage := 3
  forks := 0
  forked := []
  exited := []
  reaps := []
  freedStacks := []
  freedDirs := []

def Alive (state : Procstate) : Prop :=
  state = .sleeping ∨ state = .runnable ∨ state = .running

instance (state : Procstate) : Decidable (Alive state) := inferInstanceAs (Decidable (_ ∨ _))

theorem alive_running : Alive .running := .inr (.inr rfl)

theorem not_alive_unused : ¬ Alive .unused := by decide

theorem not_alive_embryo : ¬ Alive .embryo := by decide

theorem not_alive_zombie : ¬ Alive .zombie := by decide

/-- A live process stays live, any other keeps its state, and the process in `slot` is
not put to sleep on its own address. -/
structure SameLife (slot : Slot) (before after : Proc) : Prop where
  parent : after.parent = before.parent
  pid : after.pid = before.pid
  state : after.state = before.state ∨ (Alive before.state ∧ Alive after.state)
  asleep : after.state = .sleeping → after.chan = some (.proc slot) →
    before.state = .sleeping ∧ before.chan = some (.proc slot)

theorem SameLife.refl (slot : Slot) (proc : Proc) : SameLife slot proc proc :=
  ⟨rfl, rfl, .inl rfl, fun state chan => ⟨state, chan⟩⟩

variable {slot : Slot}

theorem SameLife.alive_iff {before after : Proc}
    (same : SameLife slot before after) : Alive after.state ↔ Alive before.state := by
  rcases same.state with kept | both
  · rw [kept]
  · exact ⟨fun _ => both.1, fun _ => both.2⟩

theorem SameLife.state_iff {before after : Proc} (same : SameLife slot before after)
    {state : Procstate} (dead : ¬ Alive state) : after.state = state ↔ before.state = state := by
  rcases same.state with kept | both
  · rw [kept]
  · constructor
    · intro here
      rw [here] at both
      exact absurd both.2 dead
    · intro here
      rw [here] at both
      exact absurd both.1 dead

theorem SameLife.trans {first second third : Proc} (one : SameLife slot first second)
    (two : SameLife slot second third) : SameLife slot first third where
  parent := two.parent.trans one.parent
  pid := two.pid.trans one.pid
  state := by
    rcases two.state with kept | both
    · rw [kept]
      exact one.state
    · exact .inr ⟨one.alive_iff.mp both.1, both.2⟩
  asleep := by
    intro state chan
    obtain ⟨wasAsleep, onItself⟩ := two.asleep state chan
    exact one.asleep wasAsleep onItself

structure Stirs (t after : Ptable) : Prop where
  init : after.initproc = t.initproc
  nextpid : after.nextpid = t.nextpid
  each : ∀ q, SameLife q (t.proc q) (after.proc q)

namespace Stirs

variable {t after : Ptable}

theorem set_proc {proc : Proc} (same : SameLife slot (t.proc slot) proc) :
    Stirs t (setProc t slot proc) := by
  refine ⟨rfl, rfl, ?_⟩
  intro q
  by_cases here : q = slot
  · subst here
    rw [set_proc_same]
    exact same
  · rw [set_proc_other t slot q proc here]
    exact SameLife.refl q _

theorem trans {last : Ptable} (first : Stirs t after) (second : Stirs after last) :
    Stirs t last where
  init := second.init.trans first.init
  nextpid := second.nextpid.trans first.nextpid
  each := fun q => (first.each q).trans (second.each q)

theorem wakeup (t : Ptable) (chan : Option Chan) : Stirs t (wakeup1 t chan) := by
  refine ⟨rfl, rfl, ?_⟩
  intro q
  simp only [wakeup1]
  split
  next woken =>
    refine ⟨rfl, rfl, .inr ⟨.inl woken.1, .inr (.inl rfl)⟩, ?_⟩
    intro state
    cases state
  next => exact SameLife.refl q _

theorem kill (t : Ptable) (pid : Int) : Stirs t (kill t pid).2 := by
  unfold ProcTable.kill
  split
  next slot _ =>
    apply set_proc
    refine ⟨rfl, rfl, ?_, ?_⟩
    · dsimp only
      split
      next sleeping => exact .inr ⟨.inl sleeping, .inr (.inl rfl)⟩
      next => exact .inl rfl
    · dsimp only
      split
      next =>
        intro state
        cases state
      next awake =>
        intro state
        exact absurd state awake
  next => exact ⟨rfl, rfl, fun q => SameLife.refl q _⟩

theorem buy_tickets (t : Ptable) (p np : Slot) : Stirs t (buyTickets t (some p) np) := by
  have amount (slot : Slot) (proc : Proc) : SameLife slot proc (getTicketAmount proc).2 := by
    unfold getTicketAmount
    split_ifs <;> exact ⟨rfl, rfl, .inl rfl, fun state chan => ⟨state, chan⟩⟩
  have paid (slot : Slot) (proc : Proc) (tickets : Nat) :
      SameLife slot proc { proc with tickets := tickets } :=
    ⟨rfl, rfl, .inl rfl, fun state chan => ⟨state, chan⟩⟩
  have named : Stirs t (setProc t np { t.proc np with nice := 120 }) :=
    set_proc ⟨rfl, rfl, .inl rfl, fun state chan => ⟨state, chan⟩⟩
  have read := named.trans (set_proc (amount p _))
  refine ⟨rfl, rfl, ?_⟩
  intro q
  exact (read.trans (set_proc (paid np _ _))).each q

theorem sleep {p : Slot} (running : (t.proc p).state = .running) (address : Nat) :
    Stirs t (sleep t p (.address address)) := by
  apply set_proc
  refine ⟨rfl, rfl, .inr ⟨by rw [running]; exact alive_running, .inl rfl⟩, ?_⟩
  intro _ onItself
  cases onItself

theorem yield {p : Slot} (running : (t.proc p).state = .running) : Stirs t (yield t p) := by
  apply set_proc
  refine ⟨rfl, rfl, .inr ⟨by rw [running]; exact alive_running, .inr (.inl rfl)⟩, ?_⟩
  intro state
  cases state

theorem dispatch {p : Slot} (runnable : (t.proc p).state = .runnable) : Stirs t (dispatch t p) := by
  apply set_proc
  refine ⟨rfl, rfl, .inr ⟨by rw [runnable]; exact .inr (.inl rfl), alive_running⟩, ?_⟩
  intro state
  cases state

end Stirs

def Woken (before after : Procstate) : Prop :=
  after = before ∨ (before = .sleeping ∧ after = .runnable)

theorem Woken.trans {first second third : Procstate} (one : Woken first second)
    (two : Woken second third) : Woken first third := by
  rcases two with kept | woken
  · rw [kept]
    exact one
  · rcases one with kept | before
    · rw [kept] at woken
      exact .inr woken
    · rw [before.2] at woken
      cases woken.1

theorem Woken.sleeping {before after : Procstate} (woken : Woken before after)
    (asleep : after = .sleeping) : before = .sleeping := by
  rcases woken with kept | awake
  · rw [← kept]
    exact asleep
  · rw [awake.2] at asleep
    cases asleep

theorem wakeup_woken (t : Ptable) (chan : Option Chan) (q : Slot) :
    Woken (t.proc q).state ((wakeup1 t chan).proc q).state := by
  simp only [wakeup1]
  split
  next woken => exact .inr ⟨woken.1, rfl⟩
  next => exact .inl rfl

theorem wakeup_chan (t : Ptable) (chan : Option Chan) (q : Slot) :
    ((wakeup1 t chan).proc q).chan = (t.proc q).chan := by
  simp only [wakeup1]
  split <;> rfl

theorem wakeup_awake (t : Ptable) {chan : Option Chan} {q : Slot}
    (waits : (t.proc q).chan = chan) : ((wakeup1 t chan).proc q).state ≠ .sleeping := by
  simp only [wakeup1]
  split
  next => intro asleep; cases asleep
  next awake => exact fun asleep => awake ⟨asleep, waits⟩

/-- The loop of `exit` over `slots`: the children of `current` go to `initproc`, which is
woken if one of them is a zombie. -/
structure Passes (current : Slot) (slots : List Slot) (t after : Ptable) : Prop where
  init : after.initproc = t.initproc
  nextpid : after.nextpid = t.nextpid
  pid : ∀ q, (after.proc q).pid = (t.proc q).pid
  chan : ∀ q, (after.proc q).chan = (t.proc q).chan
  parent : ∀ q, (after.proc q).parent =
    if q ∈ slots ∧ (t.proc q).parent = some current then some t.initproc else (t.proc q).parent
  state : ∀ q, Woken (t.proc q).state (after.proc q).state
  wakes : ∀ z ∈ slots, (t.proc z).parent = some current → (t.proc z).state = .zombie →
    ∀ q, (t.proc q).chan = some (.proc t.initproc) → (after.proc q).state ≠ .sleeping

/-- One round of that loop at a child of the exiting process. -/
structure Adopts (slot : Slot) (t adopted : Ptable) : Prop where
  init : adopted.initproc = t.initproc
  nextpid : adopted.nextpid = t.nextpid
  pid : ∀ q, (adopted.proc q).pid = (t.proc q).pid
  chan : ∀ q, (adopted.proc q).chan = (t.proc q).chan
  parent : ∀ q, (adopted.proc q).parent =
    if q = slot then some t.initproc else (t.proc q).parent
  state : ∀ q, Woken (t.proc q).state (adopted.proc q).state

theorem adopts_set_parent (slot : Slot) (t : Ptable) :
    Adopts slot t (setProc t slot { t.proc slot with parent := some t.initproc }) := by
  refine ⟨rfl, rfl, ?_, ?_, ?_, ?_⟩
  all_goals
    intro q
    by_cases here : q = slot
  · subst here
    rw [set_proc_same]
  · rw [set_proc_other _ _ _ _ here]
  · subst here
    rw [set_proc_same]
  · rw [set_proc_other _ _ _ _ here]
  · subst here
    rw [set_proc_same, if_pos rfl]
  · rw [set_proc_other _ _ _ _ here, if_neg here]
  · subst here
    rw [set_proc_same]
    exact .inl rfl
  · rw [set_proc_other _ _ _ _ here]
    exact .inl rfl

theorem Adopts.wakeup {t adopted : Ptable} (adopts : Adopts slot t adopted)
    (chan : Option Chan) : Adopts slot t (wakeup1 adopted chan) where
  init := adopts.init
  nextpid := adopts.nextpid
  pid := fun q => ((Stirs.wakeup adopted chan).each q).pid.trans (adopts.pid q)
  chan := fun q => (wakeup_chan adopted chan q).trans (adopts.chan q)
  parent := fun q => ((Stirs.wakeup adopted chan).each q).parent.trans (adopts.parent q)
  state := fun q => (adopts.state q).trans (wakeup_woken adopted chan q)

theorem Adopts.passes {current slot : Slot} {rest : List Slot} {t adopted after : Ptable}
    (adopts : Adopts slot t adopted) (other : current ≠ t.initproc)
    (child : (t.proc slot).parent = some current)
    (wakes : (t.proc slot).state = .zombie → ∀ q, (t.proc q).chan = some (.proc t.initproc) →
      (adopted.proc q).state ≠ .sleeping)
    (passes : Passes current rest adopted after) : Passes current (slot :: rest) t after where
  init := passes.init.trans adopts.init
  nextpid := passes.nextpid.trans adopts.nextpid
  pid := fun q => (passes.pid q).trans (adopts.pid q)
  chan := fun q => (passes.chan q).trans (adopts.chan q)
  parent := by
    intro q
    rw [passes.parent q, adopts.parent q, adopts.init]
    by_cases here : q = slot
    · subst here
      have different : t.initproc ≠ current := Ne.symm other
      simp [child, different]
    · simp [here]
  state := fun q => (adopts.state q).trans (passes.state q)
  wakes := by
    intro z member isChild zombie q waits asleep
    have asleepBefore := (passes.state q).sleeping asleep
    by_cases here : z = slot
    · subst here
      exact wakes zombie q waits asleepBefore
    · have inRest : z ∈ rest := by
        rcases List.mem_cons.mp member with same | later
        · exact absurd same here
        · exact later
      refine passes.wakes z inRest ?_ ?_ q ?_ asleep
      · rw [adopts.parent z, if_neg here]
        exact isChild
      · rcases adopts.state z with same | woken
        · rw [same]
          exact zombie
        · rw [zombie] at woken
          cases woken.1
      · rw [adopts.chan q, adopts.init]
        exact waits

theorem pass_children_passes {current : Slot} (slots : List Slot) (t : Ptable)
    (other : current ≠ t.initproc) : Passes current slots t (passChildren t current slots) := by
  induction slots generalizing t with
  | nil =>
    refine ⟨rfl, rfl, fun _ => rfl, fun _ => rfl, ?_, fun _ => .inl rfl, ?_⟩
    · intro q
      rw [if_neg fun here => List.not_mem_nil here.1]
      rfl
    · intro z member
      cases member
  | cons slot rest ih =>
    unfold passChildren
    split
    next child =>
      have adopts := adopts_set_parent slot t
      split
      next zombie =>
        have woken := adopts.wakeup (some (.proc t.initproc))
        apply woken.passes other child _ (ih _ (by rw [woken.init]; exact other))
        intro _ q waits
        exact wakeup_awake _ ((adopts.chan q).trans waits)
      next alive =>
        apply adopts.passes other child _ (ih _ (by rw [adopts.init]; exact other))
        intro zombie
        exact absurd zombie alive
    next notChild =>
      have passes := ih t other
      refine ⟨passes.init, passes.nextpid, passes.pid, passes.chan, ?_, passes.state, ?_⟩
      · intro q
        rw [passes.parent q]
        by_cases here : q = slot
        · subst here
          simp [notChild]
        · simp [here]
      · intro z member isChild
        rcases List.mem_cons.mp member with same | later
        · rw [same] at isChild
          exact absurd isChild notChild
        · exact passes.wakes z later isChild

structure Exits (p : Slot) (t after : Ptable) : Prop where
  notInit : p ≠ t.initproc
  init : after.initproc = t.initproc
  nextpid : after.nextpid = t.nextpid
  pid : ∀ q, (after.proc q).pid = (t.proc q).pid
  chan : ∀ q, (after.proc q).chan = (t.proc q).chan
  parent : ∀ q, (after.proc q).parent =
    if (t.proc q).parent = some p then some t.initproc else (t.proc q).parent
  zombie : (after.proc p).state = .zombie
  state : ∀ q, q ≠ p → Woken (t.proc q).state (after.proc q).state
  wakesParent : ∀ r, (t.proc p).parent = some r → ∀ q, q ≠ p →
    (t.proc q).chan = some (.proc r) → (after.proc q).state ≠ .sleeping
  wakesInit : ∀ z, (t.proc z).parent = some p → (t.proc z).state = .zombie → ∀ q, q ≠ p →
    (t.proc q).chan = some (.proc t.initproc) → (after.proc q).state ≠ .sleeping

theorem exit_exits {t after : Ptable} {p : Slot} (exited : exit t p = some after) :
    Exits p t after := by
  unfold exit at exited
  split at exited
  · cases exited
  next notInit =>
    cases exited
    have woken := Stirs.wakeup t ((t.proc p).parent.map .proc)
    have chans := wakeup_chan t ((t.proc p).parent.map .proc)
    have states := wakeup_woken t ((t.proc p).parent.map .proc)
    have parentAwake := @wakeup_awake t ((t.proc p).parent.map .proc)
    have passes := pass_children_passes (List.finRange nproc)
      (wakeup1 t ((t.proc p).parent.map .proc)) notInit
    generalize wakeup1 t ((t.proc p).parent.map .proc) = first at woken chans states parentAwake passes
    generalize passChildren first p (List.finRange nproc) = passed at passes
    have member (q : Slot) : q ∈ List.finRange nproc := List.mem_finRange q
    have here : (setProc passed p { passed.proc p with state := .zombie }).proc p =
        { passed.proc p with state := .zombie } := set_proc_same _ _ _
    have there (q : Slot) (different : q ≠ p) :
        (setProc passed p { passed.proc p with state := .zombie }).proc q = passed.proc q :=
      set_proc_other _ _ _ _ different
    -- Only the state of `p` differs from `passed`.
    have fields (q : Slot) :
        ((setProc passed p { passed.proc p with state := .zombie }).proc q).pid =
            (passed.proc q).pid ∧
        ((setProc passed p { passed.proc p with state := .zombie }).proc q).chan =
            (passed.proc q).chan ∧
        ((setProc passed p { passed.proc p with state := .zombie }).proc q).parent =
            (passed.proc q).parent := by
      by_cases same : q = p
      · subst same
        rw [here]
        exact ⟨rfl, rfl, rfl⟩
      · rw [there q same]
        exact ⟨rfl, rfl, rfl⟩
    refine ⟨notInit, passes.init.trans woken.init, passes.nextpid.trans woken.nextpid,
      ?_, ?_, ?_, ?_, ?_, ?_, ?_⟩
    · intro q
      exact (fields q).1.trans ((passes.pid q).trans (woken.each q).pid)
    · intro q
      exact (fields q).2.1.trans ((passes.chan q).trans (chans q))
    · intro q
      refine (fields q).2.2.trans ((passes.parent q).trans ?_)
      rw [(woken.each q).parent, woken.init]
      simp only [member, true_and]
    · exact congrArg Proc.state here
    · intro q different
      refine ((states q).trans (passes.state q)).trans (.inl ?_)
      exact congrArg Proc.state (there q different)
    · intro r parent q different waits asleep
      have inPassed : (passed.proc q).state = .sleeping :=
        (congrArg Proc.state (there q different)).symm.trans asleep
      refine parentAwake ?_ ((passes.state q).sleeping inPassed)
      rw [waits, parent]
      rfl
    · intro z child zombie q different waits asleep
      have inPassed : (passed.proc q).state = .sleeping :=
        (congrArg Proc.state (there q different)).symm.trans asleep
      refine passes.wakes z (member z) ?_ ?_ q ?_ inPassed
      · rw [(woken.each z).parent]
        exact child
      · exact ((woken.each z).state_iff (by decide)).mpr zombie
      · rw [chans q, woken.init]
        exact waits

abbrev Forking := Slot → Option (Slot × Phase)

/-- The parent of a process is live, and only `initproc` and unfinished processes lack
one. A child in the making belongs to one process. Nobody sleeps in `wait` while it has
a zombie child. -/
structure Family (t : Ptable) (forking : Forking) : Prop where
  init : Alive (t.proc t.initproc).state
  orphan : (t.proc t.initproc).parent = none
  parentAlive : ∀ q p, (t.proc q).parent = some p → Alive (t.proc p).state
  adopted : ∀ q, Alive (t.proc q).state ∨ (t.proc q).state = .zombie → q ≠ t.initproc →
    (t.proc q).parent ≠ none
  notSelf : ∀ q, (t.proc q).parent ≠ some q
  vacant : ∀ q, (t.proc q).state = .unused → (t.proc q).parent = none
  forkAlive : ∀ p np phase, forking p = some (np, phase) → Alive (t.proc p).state
  forkChild : ∀ p np phase, forking p = some (np, phase) → (t.proc np).state = .embryo
  forkParent : ∀ p np phase, forking p = some (np, phase) →
    (t.proc np).parent = if phase = .spaced then some p else none
  forkOnce : ∀ p q np first second, forking p = some (np, first) →
    forking q = some (np, second) → p = q
  waiting : ∀ w z, (t.proc w).state = .sleeping → (t.proc w).chan = some (.proc w) →
    (t.proc z).parent = some w → (t.proc z).state ≠ .zombie

theorem set_proc_view (t : Ptable) (slot : Slot) (proc : Proc) (q : Slot) :
    (setProc t slot proc).proc q = if q = slot then proc else t.proc q := by
  by_cases here : q = slot
  · subst here
    rw [set_proc_same, if_pos rfl]
  · rw [set_proc_other _ _ _ _ here, if_neg here]

theorem update_forking {forking : Forking} {p q : Slot} {child : Option (Slot × Phase)}
    {result : Slot × Phase} (found : update forking p child q = some result) :
    (q = p ∧ child = some result) ∨ (q ≠ p ∧ forking q = some result) := by
  by_cases here : q = p
  · subst here
    rw [update_self] at found
    exact .inl ⟨rfl, found⟩
  · rw [update_of_ne here] at found
    exact .inr ⟨here, found⟩

namespace Family

variable {t after : Ptable} {forking : Forking} {p np : Slot}

section
variable (family : Family t forking)
include family

theorem transfer (init : after.initproc = t.initproc)
    (parents : ∀ q, (after.proc q).parent = (t.proc q).parent)
    (alive : ∀ q, Alive (after.proc q).state ↔ Alive (t.proc q).state)
    (dead : ∀ q state, ¬ Alive state → ((after.proc q).state = state ↔ (t.proc q).state = state))
    (waiting : ∀ w z, (after.proc w).state = .sleeping → (after.proc w).chan = some (.proc w) →
      (t.proc z).parent = some w → (t.proc z).state ≠ .zombie) : Family after forking where
  init := by
    rw [init, alive]
    exact family.init
  orphan := by
    rw [init, parents]
    exact family.orphan
  parentAlive := by
    intro q p parent
    rw [parents q] at parent
    rw [alive p]
    exact family.parentAlive q p parent
  adopted := by
    intro q state other
    rw [alive q, dead q _ not_alive_zombie] at state
    rw [init] at other
    rw [parents q]
    exact family.adopted q state other
  notSelf := by
    intro q
    rw [parents q]
    exact family.notSelf q
  vacant := by
    intro q unused
    rw [dead q _ not_alive_unused] at unused
    rw [parents q]
    exact family.vacant q unused
  forkAlive := by
    intro p np phase forks
    rw [alive p]
    exact family.forkAlive p np phase forks
  forkChild := by
    intro p np phase forks
    rw [dead np _ not_alive_embryo]
    exact family.forkChild p np phase forks
  forkParent := by
    intro p np phase forks
    rw [parents np]
    exact family.forkParent p np phase forks
  forkOnce := family.forkOnce
  waiting := by
    intro w z state chan child zombie
    rw [parents z] at child
    rw [dead z _ not_alive_zombie] at zombie
    exact waiting w z state chan child zombie

theorem stirs (stirs : Stirs t after) : Family after forking := by
  apply family.transfer stirs.init (fun q => (stirs.each q).parent)
    (fun q => (stirs.each q).alive_iff) (fun q state dead => (stirs.each q).state_iff dead)
  intro w z state chan child
  obtain ⟨wasAsleep, onItself⟩ := (stirs.each w).asleep state chan
  exact family.waiting w z wasAsleep onItself child

theorem fork_other {q child : Slot} {phase later : Phase} (forks : forking p = some (np, phase))
    (other : q ≠ p) (forked : forking q = some (child, later)) : child ≠ np := by
  rintro rfl
  exact other (family.forkOnce q p child later phase forked forks)

theorem fork_alive {child : Option (Slot × Phase)} (running : Alive (t.proc p).state) (q np : Slot)
    (phase : Phase) (forked : update forking p child q = some (np, phase)) :
    Alive (t.proc q).state := by
  rcases update_forking forked with ⟨rfl, -⟩ | ⟨-, before⟩
  · exact running
  · exact family.forkAlive q np phase before

/-- A process that is not live changes. It does not become a zombie or fall asleep, and it
keeps its parent if it stays an embryo. -/
theorem change_idle (p np : Slot) {proc : Proc} {next : Forking} (idle : ¬ Alive (t.proc np).state)
    (notZombie : proc.state ≠ .zombie) (awake : proc.state ≠ .sleeping)
    (adopted : Alive proc.state → proc.parent ≠ none)
    (vacant : proc.state = .unused → proc.parent = none)
    (parent : ∀ q, proc.parent = some q → Alive (t.proc q).state)
    (forkAlive : ∀ q child phase, next q = some (child, phase) → Alive (t.proc q).state)
    (forks : ∀ q child phase, next q = some (child, phase) →
      (child = np ∧ q = p ∧ proc.state = .embryo ∧
        proc.parent = if phase = .spaced then some p else none) ∨
      (child ≠ np ∧ forking q = some (child, phase))) : Family (setProc t np proc) next := by
  have view := set_proc_view t np proc
  have keeps (q : Slot) (alive : Alive (t.proc q).state) : q ≠ np := by
    rintro rfl
    exact idle alive
  have still (q : Slot) (alive : Alive (t.proc q).state) :
      Alive ((setProc t np proc).proc q).state := by
    rw [view q, if_neg (keeps q alive)]
    exact alive
  refine ⟨still _ family.init, ?_, ?_, ?_, ?_, ?_, ?_, ?_, ?_, ?_, ?_⟩
  · change ((setProc t np proc).proc t.initproc).parent = none
    rw [view _, if_neg (keeps _ family.init)]
    exact family.orphan
  · intro q r isParent
    rw [view q] at isParent
    split at isParent
    · exact still r (parent r isParent)
    · exact still r (family.parentAlive q r isParent)
  · intro q state other
    rw [view q] at state ⊢
    split at state
    next here =>
      rw [if_pos here]
      exact adopted (state.resolve_right notZombie)
    next here =>
      rw [if_neg here]
      exact family.adopted q state other
  · intro q isParent
    rw [view q] at isParent
    split at isParent
    next here => exact idle (here ▸ parent q isParent)
    next => exact family.notSelf q isParent
  · intro q unused
    rw [view q] at unused ⊢
    split at unused
    next here =>
      rw [if_pos here]
      exact vacant unused
    next here =>
      rw [if_neg here]
      exact family.vacant q unused
  · intro q child phase forked
    exact still q (forkAlive q child phase forked)
  · intro q child phase forked
    rw [view child]
    rcases forks q child phase forked with ⟨same, -, embryo, -⟩ | ⟨different, before⟩
    · rw [if_pos same]
      exact embryo
    · rw [if_neg different]
      exact family.forkChild q child phase before
  · intro q child phase forked
    rw [view child]
    rcases forks q child phase forked with ⟨same, forker, -, isParent⟩ | ⟨different, before⟩
    · rw [if_pos same, forker]
      exact isParent
    · rw [if_neg different]
      exact family.forkParent q child phase before
  · intro q r child first second one two
    rcases forks q child first one with ⟨same, forker, -, -⟩ | ⟨different, before⟩
    · rcases forks r child second two with ⟨-, also, -, -⟩ | ⟨different, -⟩
      · rw [forker, also]
      · exact absurd same different
    · rcases forks r child second two with ⟨same, -, -, -⟩ | ⟨-, also⟩
      · exact absurd same different
      · exact family.forkOnce q r child first second before also
  · intro w z state chan child zombie
    rw [view z] at child zombie
    rw [view w] at state chan
    split at zombie
    · exact notZombie zombie
    next here =>
      rw [if_neg here] at child
      split at state
      · exact awake state
      next sleeper =>
        rw [if_neg sleeper] at chan
        exact family.waiting w z state chan child zombie

theorem alloc (running : Alive (t.proc p).state) (unused : (t.proc np).state = .unused)
    (pid : Int) :
    Family (setProc t np { t.proc np with state := .embryo, pid := pid })
      (update forking p (some (np, .named))) := by
  refine family.change_idle p np (by rw [unused]; decide) nofun nofun
    (fun alive => absurd alive not_alive_embryo) nofun (family.parentAlive np)
    (family.fork_alive running) ?_
  intro q child phase forked
  rcases update_forking forked with ⟨same, new⟩ | ⟨-, before⟩
  · cases new
    exact .inl ⟨rfl, same, rfl, family.vacant np unused⟩
  · right
    refine ⟨?_, before⟩
    rintro rfl
    exact nomatch unused.symm.trans (family.forkChild q child phase before)

theorem give_up {phase : Phase} (forks : forking p = some (np, phase)) (early : phase ≠ .spaced) :
    Family (setProc t np { t.proc np with state := .unused })
      (update forking p none) := by
  have embryo := family.forkChild p np phase forks
  have noParent := family.forkParent p np phase forks
  rw [if_neg early] at noParent
  refine family.change_idle p np (by rw [embryo]; decide) nofun nofun
    (fun alive => absurd alive not_alive_unused) (fun _ => noParent) (family.parentAlive np)
    (family.fork_alive (family.forkAlive p np phase forks)) ?_
  intro q child later forked
  rcases update_forking forked with ⟨-, wrong⟩ | ⟨other, before⟩
  · cases wrong
  · exact .inr ⟨family.fork_other forks other before, before⟩

theorem give_space (forks : forking p = some (np, .stacked)) :
    Family (setProc t np { t.proc np with parent := some p })
      (update forking p (some (np, .spaced))) := by
  have embryo := family.forkChild p np _ forks
  have running := family.forkAlive p np _ forks
  refine family.change_idle p np (by rw [embryo]; decide) (by rw [embryo]; decide)
    (by rw [embryo]; decide) (fun _ => Option.some_ne_none p)
    (fun unused => nomatch embryo.symm.trans unused)
    (fun q parent => Option.some.inj parent ▸ running) (family.fork_alive running) ?_
  intro q child phase forked
  rcases update_forking forked with ⟨same, new⟩ | ⟨other, before⟩
  · cases new
    exact .inl ⟨rfl, same, embryo, rfl⟩
  · exact .inr ⟨family.fork_other forks other before, before⟩

theorem rename_phase {phase next : Phase} (forks : forking p = some (np, phase))
    (early : phase ≠ .spaced) (still : next ≠ .spaced) :
    Family t (update forking p (some (np, next))) := by
  refine { family with
    forkAlive := family.fork_alive (family.forkAlive p np phase forks)
    forkChild := ?_
    forkParent := ?_
    forkOnce := ?_ }
  · intro q child later forked
    rcases update_forking forked with ⟨-, new⟩ | ⟨-, before⟩
    · cases new
      exact family.forkChild p np phase forks
    · exact family.forkChild q child later before
  · intro q child later forked
    rcases update_forking forked with ⟨rfl, new⟩ | ⟨-, before⟩
    · cases new
      rw [family.forkParent q np phase forks, if_neg early, if_neg still]
    · exact family.forkParent q child later before
  · intro q r child first second one two
    rcases update_forking one with ⟨atQ, newQ⟩ | ⟨otherQ, beforeQ⟩
    · cases newQ
      rcases update_forking two with ⟨atR, -⟩ | ⟨otherR, beforeR⟩
      · rw [atQ, atR]
      · exact absurd rfl (family.fork_other forks otherR beforeR)
    · rcases update_forking two with ⟨atR, newR⟩ | ⟨otherR, beforeR⟩
      · cases newR
        exact absurd rfl (family.fork_other forks otherQ beforeQ)
      · exact family.forkOnce q r child first second beforeQ beforeR

theorem start_child (forks : forking p = some (np, .spaced)) :
    Family (setProc t np { t.proc np with state := .runnable })
      (update forking p none) := by
  have embryo := family.forkChild p np _ forks
  have parent := family.forkParent p np _ forks
  rw [if_pos rfl] at parent
  refine family.change_idle p np (by rw [embryo]; decide) nofun nofun
    (fun _ => by rw [parent]; exact Option.some_ne_none p) nofun (family.parentAlive np)
    (family.fork_alive (family.forkAlive p np _ forks)) ?_
  intro q child later forked
  rcases update_forking forked with ⟨-, wrong⟩ | ⟨other, before⟩
  · cases wrong
  · exact .inr ⟨family.fork_other forks other before, before⟩

theorem exits (exits : Exits p t after) (running : Alive (t.proc p).state)
    (idle : forking p = none) : Family after forking := by
  have still (q : Slot) (other : q ≠ p) (alive : Alive (t.proc q).state) :
      Alive (after.proc q).state := by
    rcases exits.state q other with same | woken
    · rw [same]
      exact alive
    · exact .inr (.inl woken.2)
  have same (q : Slot) (other : q ≠ p) {state : Procstate} (dead : ¬ Alive state) :
      (after.proc q).state = state ↔ (t.proc q).state = state := by
    rcases exits.state q other with same | woken
    · rw [same]
    · rw [woken.1, woken.2]
      constructor
      · intro here
        rw [← here] at dead
        exact absurd (.inr (.inl rfl)) dead
      · intro here
        rw [← here] at dead
        exact absurd (.inl rfl) dead
  have initOther : t.initproc ≠ p := Ne.symm exits.notInit
  have initAlive : Alive (after.proc after.initproc).state := by
    rw [exits.init]
    exact still _ initOther family.init
  have forkerOther (q child : Slot) (phase : Phase) (forked : forking q = some (child, phase)) :
      q ≠ p := by
    intro here
    rw [here, idle] at forked
    cases forked
  refine ⟨initAlive, ?_, ?_, ?_, ?_, ?_, ?_, ?_, ?_, family.forkOnce, ?_⟩
  · rw [exits.init, exits.parent, family.orphan]
    rfl
  · intro q r parent
    rw [exits.parent q] at parent
    split at parent
    · cases parent
      rw [← exits.init]
      exact initAlive
    next notP =>
      have other : r ≠ p := by
        intro here
        rw [here] at parent
        exact notP parent
      exact still r other (family.parentAlive q r parent)
  · intro q state other
    rw [exits.init] at other
    rw [exits.parent q]
    split
    · exact Option.some_ne_none _
    · apply family.adopted q _ other
      by_cases here : q = p
      · rw [here]
        exact .inl running
      · rcases exits.state q here with kept | woken
        · rw [kept] at state
          exact state
        · rw [woken.1]
          exact .inl (.inl rfl)
  · intro q parent
    rw [exits.parent q] at parent
    split at parent
    next child =>
      have isInit := Option.some.inj parent
      rw [← isInit, family.orphan] at child
      cases child
    next => exact family.notSelf q parent
  · intro q unused
    by_cases here : q = p
    · rw [here, exits.zombie] at unused
      cases unused
    · rw [same q here not_alive_unused] at unused
      rw [exits.parent q, family.vacant q unused]
      rfl
  · intro q child phase forked
    exact still q (forkerOther q child phase forked) (family.forkAlive q child phase forked)
  · intro q child phase forked
    have embryo := family.forkChild q child phase forked
    have other : child ≠ p := by
      intro here
      rw [← here, embryo] at running
      exact not_alive_embryo running
    rw [same child other not_alive_embryo]
    exact embryo
  · intro q child phase forked
    have parent := family.forkParent q child phase forked
    have other := forkerOther q child phase forked
    rw [exits.parent child, parent]
    by_cases spaced : phase = .spaced
    · simp [spaced, other]
    · simp [spaced]
  · intro w z state chan child zombie
    have sleeper : w ≠ p := by
      intro here
      rw [here, exits.zombie] at state
      cases state
    have wasAsleep := (exits.state w sleeper).sleeping state
    rw [exits.chan w] at chan
    rw [exits.parent z] at child
    split at child
    next child' =>
      -- A child of the exiting process has been passed to `initproc`.
      have isInit := Option.some.inj child
      have zombieChild : z ≠ p := by
        intro here
        rw [here] at child'
        exact family.notSelf p child'
      rw [same z zombieChild not_alive_zombie] at zombie
      rw [← isInit] at chan state sleeper
      exact exits.wakesInit z child' zombie _ sleeper chan state
    next =>
      by_cases here : z = p
      · rw [here] at child
        exact exits.wakesParent w child w sleeper chan state
      · rw [same z here not_alive_zombie] at zombie
        exact family.waiting w z wasAsleep chan child zombie

theorem reap {child : Slot} (zombie : (t.proc child).state = .zombie) {proc : Proc}
    (state : proc.state = .unused)
    (parent : proc.parent = none) : Family (setProc t child proc) forking := by
  refine family.change_idle child child (by rw [zombie]; decide) (by rw [state]; nofun)
    (by rw [state]; nofun) (by rw [state]; exact fun alive => absurd alive not_alive_unused)
    (fun _ => parent) (fun q wrong => nomatch parent.symm.trans wrong) family.forkAlive ?_
  intro q other phase forked
  right
  refine ⟨?_, forked⟩
  rintro rfl
  exact nomatch zombie.symm.trans (family.forkChild q other phase forked)

theorem sleep_in_wait (running : (t.proc p).state = .running)
    (childless : ∀ z, (t.proc z).parent = some p → (t.proc z).state ≠ .zombie) :
    Family (sleep t p (.proc p)) forking := by
  -- Sleeping anywhere else differs from this only in the channel.
  have stirs := Stirs.sleep running 0
  have view (q : Slot) : (sleep t p (.proc p)).proc q =
      if q = p then { t.proc p with chan := some (.proc p), state := .sleeping }
      else t.proc q := set_proc_view t p _ q
  have elsewhere (q : Slot) : (sleep t p (.address 0)).proc q =
      if q = p then { t.proc p with chan := some (.address 0), state := .sleeping }
      else t.proc q := set_proc_view t p _ q
  have state (q : Slot) :
      ((sleep t p (.proc p)).proc q).state = ((sleep t p (.address 0)).proc q).state := by
    rw [view q, elsewhere q]
    split <;> rfl
  have parent (q : Slot) :
      ((sleep t p (.proc p)).proc q).parent = ((sleep t p (.address 0)).proc q).parent := by
    rw [view q, elsewhere q]
    split <;> rfl
  apply @transfer t (sleep t p (.proc p)) forking family rfl
  · intro q
    exact (parent q).trans (stirs.each q).parent
  · intro q
    rw [state q]
    exact (stirs.each q).alive_iff
  · intro q dead notAlive
    rw [state q]
    exact (stirs.each q).state_iff notAlive
  · intro w z asleep chan child
    by_cases here : w = p
    · rw [here] at child
      exact childless z child
    · rw [view w, if_neg here] at asleep chan
      exact family.waiting w z asleep chan child

end
end Family
end Xv6Hacks.ProcessLifecycle
