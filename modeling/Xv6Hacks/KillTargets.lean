import Xv6Hacks.GuardedRuns
import Xv6Hacks.ProcTable

/-!
# Whom `kill` hits

`kill` compares the pid of every slot, also of the unused ones: a slot that was never
taken or has been reaped has pid 0, and one that a failed `fork` gave back keeps the pid
it was named with. A mark on such a slot waits there for the next child, because
`allocproc` does not clear `killed`.
-/

namespace Xv6Hacks.KillTargets

open GuardedRuns ProcTable

variable {t mid after : Ptable} {slot : Slot} {p : Proc}

def target (t : Ptable) (pid : Int) : Option Slot :=
  (List.finRange nproc).find? fun slot => (t.proc slot).pid = pid

def Aimed (t : Ptable) : Action → Prop
  | .kill pid => ∀ slot ∈ target t pid, (t.proc slot).state ≠ .unused
  | _ => True

structure KillsLiving (t : Ptable) (pid : Int) : Prop where
  answer : (kill t pid).1 = 0 ↔ ∃ slot, (t.proc slot).state ≠ .unused ∧ (t.proc slot).pid = pid
  unused : ∀ slot, (t.proc slot).state = .unused → (kill t pid).2.proc slot = t.proc slot

def StartsUnkilled (t : Ptable) : Prop :=
  ∀ current np, findUnused t = some np → ((fork t current true true).2.proc np).killed = false

def Kept (t after : Ptable) : Prop :=
  ∀ slot, (after.proc slot).killed = (t.proc slot).killed ∧
    ((after.proc slot).state = .unused → (t.proc slot).state = .unused)

theorem kept_refl (t : Ptable) : Kept t t := fun _ => ⟨rfl, id⟩

theorem Kept.set (kept : Kept t mid) (killed : p.killed = (mid.proc slot).killed)
    (unused : p.state = .unused → (t.proc slot).state = .unused) : Kept t (setProc mid slot p) := by
  intro other
  by_cases here : other = slot
  · rw [here, set_proc_same]
    exact ⟨killed.trans (kept slot).1, unused⟩
  · rw [set_proc_other mid slot other p here]
    exact kept other

theorem Kept.wakeup (kept : Kept t mid) (chan : Option Chan) : Kept t (wakeup1 mid chan) := by
  intro slot
  simp only [wakeup1]
  split
  · exact ⟨(kept slot).1, Procstate.noConfusion⟩
  · exact kept slot

theorem Kept.pass_children (kept : Kept t mid) (current : Slot) (slots : List Slot) :
    Kept t (passChildren mid current slots) := by
  induction slots generalizing mid with
  | nil => exact kept
  | cons slot rest ih =>
    have adopted := kept.set (p := { mid.proc slot with parent := some mid.initproc }) rfl
      (kept slot).2
    simp only [passChildren]
    split_ifs
    · exact ih (adopted.wakeup _)
    · exact ih adopted
    · exact ih kept

theorem ticket_amount_keeps (p : Proc) :
    (getTicketAmount p).2.killed = p.killed ∧ (getTicketAmount p).2.state = p.state := by
  unfold getTicketAmount
  split_ifs <;> exact ⟨rfl, rfl⟩

theorem Kept.read (kept : Kept t mid) (slot : Slot) :
    Kept t (setProc mid slot (getTicketAmount (mid.proc slot)).2) := by
  obtain ⟨killed, state⟩ := ticket_amount_keeps (mid.proc slot)
  apply kept.set killed
  rw [state]
  exact (kept slot).2

theorem Kept.scan (kept : Kept t mid) (random : Nat) (slots : List Slot) (total : Nat) :
    Kept t (lotteryScan random slots mid total).2 := by
  induction slots generalizing mid total with
  | nil => exact kept
  | cons slot rest ih =>
    simp only [lotteryScan]
    split_ifs
    · exact ih kept total
    · exact kept.read slot
    · exact ih (kept.read slot) _

theorem Kept.buy {np : Slot} (kept : Kept t mid) (unused : (t.proc np).state = .unused)
    (current : Slot) : Kept t (buyTickets mid (some current) np) := by
  have niced := kept.set (p := { mid.proc np with nice := 120 }) rfl fun _ => unused
  exact (niced.read current).set rfl fun _ => unused

theorem fork_kept (t : Ptable) (current : Slot) (kstack uvm : Bool) :
    Kept t (fork t current kstack uvm).2 := by
  cases found : findUnused t with
  | none =>
    simp only [fork, allocproc, found]
    exact kept_refl t
  | some np =>
    have unused := find_unused_state found
    have named : Kept t { setProc t np { t.proc np with state := .embryo, pid := t.nextpid } with
        nextpid := wrapInt (t.nextpid + 1) } := (kept_refl t).set rfl fun _ => unused
    have bought := named.buy unused current
    simp only [fork, allocproc, found]
    cases kstack with
    | false => exact named.set rfl fun _ => unused
    | true =>
      cases uvm with
      | false => exact bought.set rfl fun _ => unused
      | true => exact bought.set rfl fun _ => unused

theorem update_nice_kept (t : Ptable) (current : Slot) (nice : Int) :
    Kept t (updateNice t current nice) := by
  let amount := getTicketAmount { t.proc current with nice := 120 + nice }
  obtain ⟨killed, state⟩ := ticket_amount_keeps { t.proc current with nice := 120 + nice }
  have same : amount.2.state = .unused → (t.proc current).state = .unused := by
    rw [state]
    exact id
  exact (kept_refl t).set (p := { amount.2 with tickets := amount.1 }) killed same

theorem exit_kept {current : Slot} (exited : exit t current = some after) : Kept t after := by
  rw [exit] at exited
  split at exited
  · cases exited
  · cases exited
    exact (((kept_refl t).wakeup _).pass_children current _).set rfl Procstate.noConfusion

def Clean (t : Ptable) : Prop := ∀ slot, (t.proc slot).state = .unused → (t.proc slot).killed = false

theorem Clean.kept (clean : Clean t) (kept : Kept t after) : Clean after := by
  intro slot unused
  rw [(kept slot).1]
  exact clean slot ((kept slot).2 unused)

theorem Clean.set (clean : Clean t) (unmarked : p.state = .unused → p.killed = false) :
    Clean (setProc t slot p) := by
  intro other
  by_cases here : other = slot
  · rw [here, set_proc_same]
    exact unmarked
  · rw [set_proc_other t slot other p here]
    exact clean other

theorem taken_eq {running : Prop} [Decidable running]
    (taken : (if running then some mid else none) = some after) : mid = after := by
  split at taken
  · exact Option.some.inj taken
  · cases taken

theorem clean_step {action : Action} (clean : Clean t) (aimed : Aimed t action)
    (taken : step t action = some after) : Clean after := by
  have start := kept_refl t
  cases action with
  | fork current kstack uvm =>
    obtain rfl := taken_eq taken
    exact clean.kept (fork_kept t current kstack uvm)
  | nice current value =>
    obtain rfl := taken_eq taken
    rw [sysNice]
    split
    · exact clean
    · exact clean.kept (update_nice_kept t current value)
  | exit current =>
    simp only [step, Option.ite_none_right_eq_some] at taken
    exact clean.kept (exit_kept taken.2)
  | wait current =>
    obtain rfl := taken_eq taken
    rw [ProcTable.wait]
    split
    · exact clean.set fun _ => rfl
    · split
      · exact clean
      · exact clean.set Procstate.noConfusion
  | sleep current chan =>
    obtain rfl := taken_eq taken
    exact clean.set Procstate.noConfusion
  | yield current =>
    obtain rfl := taken_eq taken
    exact clean.set Procstate.noConfusion
  | wakeup chan =>
    cases taken
    exact clean.kept (start.wakeup _)
  | kill pid =>
    cases taken
    rw [kill]
    split
    next slot found =>
      apply clean.set
      intro unused
      have alive := aimed slot found
      split at unused
      · cases unused
      · exact absurd unused alive
    next => exact clean
  | lottery random =>
    have scanned := clean.kept (start.scan random (List.finRange nproc) 0)
    simp only [step, scan] at taken
    split at taken
    next slot read drawn =>
      cases taken
      rw [drawn] at scanned
      exact scanned.set Procstate.noConfusion
    next read drawn =>
      cases taken
      rw [drawn] at scanned
      exact scanned
  | roundRobin slot =>
    obtain rfl := taken_eq taken
    exact clean.set Procstate.noConfusion

theorem kill_hits {pid : Int} (found : target t pid = some slot) :
    (kill t pid).1 = 0 ∧ ((kill t pid).2.proc slot).killed = true ∧
    ∀ other, other ≠ slot → (kill t pid).2.proc other = t.proc other := by
  rw [target] at found
  rw [kill, found]
  exact ⟨rfl, by rw [set_proc_same], fun other => set_proc_other t slot other _⟩

theorem kill_misses {pid : Int} (found : target t pid = none) : kill t pid = (-1, t) := by
  rw [target] at found
  rw [kill, found]

theorem kills_living_iff (clean : Clean t) (pid : Int) :
    KillsLiving t pid ↔ Aimed t (.kill pid) := by
  constructor
  · intro kills slot found unused
    have marked := (kill_hits found).2.1
    rw [kills.unused slot unused, clean slot unused] at marked
    cases marked
  · intro aimed
    cases found : target t pid with
    | none =>
      have absent := List.find?_eq_none.mp found
      simp only [List.mem_finRange, decide_eq_true_eq, true_implies] at absent
      constructor
      · simp [kill_misses found, absent]
      · intro slot _
        rw [kill_misses found]
    | some victim =>
      have hit : (t.proc victim).pid = pid := by simpa using List.find?_some found
      have alive := aimed victim found
      obtain ⟨answer, -, others⟩ := kill_hits found
      constructor
      · exact iff_of_true answer ⟨victim, alive, hit⟩
      · intro slot unused
        apply others
        rintro rfl
        exact alive unused

/-- In every run in which `kill` comes to processes only, a call of `kill` affects living
processes exactly if it comes to one, and children start without a mark. -/
theorem kill_only_living_iff (reached : Reaches step Aimed userinit t) :
    (∀ pid, KillsLiving t pid ↔ Aimed t (.kill pid)) ∧ StartsUnkilled t := by
  have clean : Clean t := by
    apply reaches_invariant Clean _ _ reached
    · intro slot _
      revert slot
      decide
    · exact fun _ _ _ clean aimed taken => clean_step clean aimed taken
  refine ⟨kills_living_iff clean, ?_⟩
  intro current np found
  rw [(fork_kept t current true true np).1]
  exact clean np (find_unused_state found)

theorem kill_of_init : ∃ t, Reaches step Aimed userinit t ∧
    Aimed t (.kill 1) ∧ KillsLiving t 1 ∧ StartsUnkilled t := by
  have aimed : Aimed userinit (.kill 1) := by
    intro slot found
    have first : target userinit 1 = some 0 := by decide
    rw [first] at found
    cases found
    decide
  obtain ⟨kills, starts⟩ := kill_only_living_iff (t := userinit) Reaches.start
  exact ⟨userinit, .start, aimed, (kills 1).mpr aimed, starts⟩

/-- `kill(0)` marks the first slot that was never used, and the next child is born killed. -/
theorem kill_zero_marks_child : ∃ t, Reaches step (fun _ _ => True) userinit t ∧
    ¬ KillsLiving userinit 0 ∧ ¬ StartsUnkilled t := by
  obtain ⟨t, ran, marked⟩ := exists_of_run step userinit [.kill 0, .roundRobin 0]
    (fun t => decide (findUnused t = some 1 ∧ ((fork t 0 true true).2.proc 1).killed = true))
    (by decide)
  obtain ⟨found, killed⟩ := of_decide_eq_true marked
  refine ⟨t, reaches_of_run (all_guarded_trivial _ _) ran, ?_, ?_⟩
  · intro kills
    have found : target userinit 0 = some 1 := by decide
    have kept := kills.unused 1 (by decide)
    have hit := (kill_hits found).2.1
    rw [kept] at hit
    revert hit
    decide
  · intro starts
    rw [starts 0 1 found] at killed
    cases killed

end Xv6Hacks.KillTargets
