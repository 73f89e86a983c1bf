import Mathlib.Algebra.BigOperators.Fin
import Xv6Hacks.CumulativeDraw
import Xv6Hacks.GuardedRuns
import Xv6Hacks.ProcTable

/-!
# Ticket accounting and starvation

`totalTickets` is the bound of every draw, while the scan weighs a process by its
nice value. Each transition of the process table is classified once by what it
does to the counter and to the tickets of one slot; both invariants below are
read off that classification.
-/

namespace Xv6Hacks.LotteryAccounting

open CumulativeDraw Function GuardedRuns ProcTable

variable {t after : Ptable} {slot current : Slot} {p : Proc} {action : Action}

def Live (p : Proc) : Prop := p.state ≠ .unused ∧ p.state ≠ .zombie

instance (p : Proc) : Decidable (Live p) := inferInstanceAs (Decidable (_ ∧ _))

def held (p : Proc) : Nat := if Live p then p.tickets else 0

/-- The sum of `p->tickets` over all processes that are neither unused nor zombie. -/
def heldTickets (t : Ptable) : Nat := ∑ slot, held (t.proc slot)

def SameAccount (p q : Proc) : Prop :=
  q.tickets = p.tickets ∧ q.nice = p.nice ∧ (Live q ↔ Live p)

theorem same_account_refl (p : Proc) : SameAccount p p := ⟨rfl, rfl, .rfl⟩

theorem SameAccount.trans {q r : Proc} (first : SameAccount p q) (second : SameAccount q r) :
    SameAccount p r :=
  ⟨second.1.trans first.1, second.2.1.trans first.2.1, second.2.2.trans first.2.2⟩

theorem held_of_same_account {q : Proc} (same : SameAccount p q) : held q = held p := by
  simp only [held, same.1, same.2.2]

/-- Nothing the accounting sees has changed, except possibly in one slot. -/
def SameElsewhere (t after : Ptable) (slot : Slot) : Prop :=
  ∀ other, other ≠ slot → SameAccount (t.proc other) (after.proc other)

theorem held_tickets_elsewhere (same : SameElsewhere t after slot) :
    heldTickets after + held (t.proc slot) = heldTickets t + held (after.proc slot) := by
  have rest : ∑ other ∈ Finset.univ.erase slot, held (after.proc other) =
      ∑ other ∈ Finset.univ.erase slot, held (t.proc other) := by
    apply Finset.sum_congr rfl
    intro other member
    exact held_of_same_account (same other (Finset.ne_of_mem_erase member))
  have splitAfter := Finset.add_sum_erase Finset.univ
    (fun other => held (after.proc other)) (Finset.mem_univ slot)
  have splitBefore := Finset.add_sum_erase Finset.univ
    (fun other => held (t.proc other)) (Finset.mem_univ slot)
  simp only [heldTickets]
  omega

theorem held_le_held_tickets (t : Ptable) (slot : Slot) : held (t.proc slot) ≤ heldTickets t :=
  Finset.single_le_sum (f := fun other => held (t.proc other))
    (fun _ _ => Nat.zero_le _) (Finset.mem_univ slot)

def Quiet (t after : Ptable) : Prop :=
  after.totalTickets = t.totalTickets ∧
    ∀ slot, SameAccount (t.proc slot) (after.proc slot)

theorem quiet_refl (t : Ptable) : Quiet t t := ⟨rfl, fun _ => same_account_refl _⟩

theorem Quiet.trans {u v : Ptable} (first : Quiet t u) (second : Quiet u v) : Quiet t v :=
  ⟨second.1.trans first.1, fun slot => (first.2 slot).trans (second.2 slot)⟩

theorem Quiet.held_tickets (quiet : Quiet t after) : heldTickets after = heldTickets t :=
  Finset.sum_congr rfl fun slot _ => held_of_same_account (quiet.2 slot)

theorem quiet_set_proc (t : Ptable) (slot : Slot) (p : Proc)
    (same : SameAccount (t.proc slot) p) : Quiet t (setProc t slot p) := by
  refine ⟨rfl, fun other => ?_⟩
  by_cases here : other = slot
  · subst here
    rwa [set_proc_same]
  · rw [set_proc_other t slot other p here]
    exact same_account_refl _

theorem quiet_wakeup1 (t : Ptable) (chan : Option Chan) : Quiet t (wakeup1 t chan) := by
  refine ⟨rfl, fun slot => ?_⟩
  simp only [wakeup1]
  split_ifs with asleep
  · exact ⟨rfl, rfl, by simp [Live, asleep.1]⟩
  · exact same_account_refl _

theorem quiet_pass_children (current : Slot) (slots : List Slot) (t : Ptable) :
    Quiet t (passChildren t current slots) := by
  induction slots generalizing t with
  | nil => exact quiet_refl t
  | cons slot rest ih =>
    have adopt : Quiet t
        (setProc t slot { t.proc slot with parent := some t.initproc }) :=
      quiet_set_proc t slot _ ⟨rfl, rfl, .rfl⟩
    simp only [passChildren]
    split_ifs
    · exact (adopt.trans (quiet_wakeup1 _ _)).trans (ih _)
    · exact adopt.trans (ih _)
    · exact ih t

theorem quiet_wait (t : Ptable) (current : Slot) (running : (t.proc current).state = .running) :
    Quiet t (wait t current).2 := by
  unfold wait
  split
  · rename_i slot found
    have zombie : (t.proc slot).state = .zombie := by
      have hit := List.find?_some found
      simp only [decide_eq_true_eq] at hit
      exact hit.2
    exact quiet_set_proc t slot _ ⟨rfl, rfl, by simp [Live, zombie]⟩
  · split_ifs
    · exact quiet_refl t
    · exact quiet_set_proc t current _ ⟨rfl, rfl, by simp [Live, running]⟩

theorem quiet_kill (t : Ptable) (pid : Int) : Quiet t (kill t pid).2 := by
  unfold kill
  split
  · rename_i slot found
    refine quiet_set_proc t slot _ ⟨rfl, rfl, ?_⟩
    by_cases asleep : (t.proc slot).state = .sleeping <;> simp [Live, asleep]
  · exact quiet_refl t

/-- Every live process has a nice value `sys_nice` could have set. -/
def WellNiced (t : Ptable) : Prop :=
  ∀ slot, Live (t.proc slot) → 100 ≤ (t.proc slot).nice ∧ (t.proc slot).nice ≤ 139

def weight (t : Ptable) (slot : Slot) : Nat := (getTicketAmount (t.proc slot)).1

theorem live_of_runnable (runnable : p.state = .runnable) : Live p := by
  simp [Live, runnable]

theorem live_of_running (running : p.state = .running) : Live p := by
  simp [Live, running]

theorem set_proc_read (niced : WellNiced t) (live : Live (t.proc slot)) :
    setProc t slot (getTicketAmount (t.proc slot)).2 = t := by
  have range := niced slot live
  rw [ticket_amount_keeps_proc _ range.1 range.2]
  simp [setProc]

theorem lottery_scan_eq_draw (niced : WellNiced t) (random : Nat) (slots : List Slot)
    (runningTotal : Nat) : lotteryScan random slots t runningTotal = (draw (weight t) random
    (slots.filter fun slot => (t.proc slot).state = .runnable) runningTotal, t) := by
  induction slots generalizing runningTotal with
  | nil => rfl
  | cons slot rest ih =>
    by_cases runnable : (t.proc slot).state = .runnable
    · have read := set_proc_read niced (live_of_runnable runnable)
      by_cases window : random < runningTotal + (getTicketAmount (t.proc slot)).1
      · simp [lotteryScan, runnable, read, draw, weight, window]
      · simp only [lotteryScan, runnable, ne_eq, not_true_eq_false, if_false, read,
          List.filter_cons, decide_true, if_true, draw]
        have passed : ¬ random < runningTotal + weight t slot := window
        rw [if_neg window, ih, if_neg passed]
        rfl
    · simp only [lotteryScan, runnable, ne_eq, not_false_eq_true, if_true,
        List.filter_cons, decide_false, Bool.false_eq_true, if_false]
      exact ih _

theorem scan_eq_draw (niced : WellNiced t) (random : Nat) : scan t random = (draw (weight t) random
    ((List.finRange nproc).filter fun slot => (t.proc slot).state = .runnable) 0, t) :=
  lottery_scan_eq_draw niced random (List.finRange nproc) 0

def runnableTickets (t : Ptable) : Nat :=
  (((List.finRange nproc).filter fun slot => (t.proc slot).state = .runnable).map (weight t)).sum

def draws (t : Ptable) (bound : Nat) (winner : Option Slot) : Finset Nat :=
  (Finset.range bound).filter fun random => (scan t random).1 = winner

/-- With nice values in range and a bound that covers the runnable processes, each of them
wins as many consecutive numbers as it has tickets, and the numbers left over have no
winner. -/
theorem draws_proportional (t : Ptable)
    (niced : ∀ slot, 100 ≤ (t.proc slot).nice ∧ (t.proc slot).nice ≤ 139) (bound : Nat)
    (enough : runnableTickets t ≤ bound) :
    (∀ slot, (draws t bound (some slot)).Nonempty → (t.proc slot).state = .runnable) ∧
      (∀ slot, (t.proc slot).state = .runnable → ∃ first,
        draws t bound (some slot) = Finset.Ico first (first + (getTicketAmount (t.proc slot)).1)) ∧
      (draws t bound none).card = bound - runnableTickets t := by
  have drawn := fun random => congrArg Prod.fst (scan_eq_draw (fun slot _ => niced slot) random)
  have once : ((List.finRange nproc).filter fun slot => (t.proc slot).state = .runnable).Nodup :=
    (List.nodup_finRange nproc).filter _
  refine ⟨?_, ?_, ?_⟩
  · rintro slot ⟨random, member⟩
    have won := (Finset.mem_filter.mp member).2
    rw [drawn] at won
    simpa using (List.mem_filter.mp (draw_mem _ _ _ _ _ won)).2
  · intro slot runnable
    have member : slot ∈ (List.finRange nproc).filter fun slot => (t.proc slot).state = .runnable := by
      simp [runnable]
    obtain ⟨before, later, split⟩ := List.append_of_mem member
    refine ⟨(before.map (weight t)).sum, ?_⟩
    rw [split] at once
    simp only [runnableTickets, split, List.map_append, List.map_cons, List.sum_append,
      List.sum_cons] at enough
    ext random
    rw [draws, Finset.mem_filter, drawn, split, draw_eq_some_iff _ _ _ _ _ once,
      Finset.mem_range, Finset.mem_Ico, ← weight]
    omega
  · have rest : draws t bound none = Finset.Ico (runnableTickets t) bound := by
      ext random
      rw [draws, Finset.mem_filter, drawn, draw_eq_none_iff _ _ random.zero_le,
        Finset.mem_range, Finset.mem_Ico, Nat.zero_add, ← runnableTickets, and_comm]
    rw [rest, Nat.card_Ico]

def busyTable : Ptable :=
  { bootTable with proc := fun slot => { bootTable.proc slot with state := .runnable, nice := 120 } }

theorem busy_table_draws : (draws busyTable 200 none).card = 8 :=
  (draws_proportional busyTable (by decide) 200 (by decide)).2.2

/-- The effect of an action on the ticket counter and on the one slot whose
tickets it touches. A `fork` that fails after `allocproc` has paid for a slot
that is unused again. -/
inductive AccountStep (t after : Ptable) : Action → Prop where
  | quiet {action : Action} (same : Quiet t after) : AccountStep t after action
  | bought {current slot : Slot} (running : (t.proc current).state = .running)
      (free : (t.proc slot).state = .unused) (live : Live (after.proc slot))
      (elsewhere : SameElsewhere t after slot)
      (nice : (after.proc slot).nice = 120)
      (tickets : (after.proc slot).tickets = weight t current)
      (total : after.totalTickets = wrapInt (t.totalTickets + weight t current)) :
      AccountStep t after (.fork current true true)
  | leaked {current slot : Slot} (running : (t.proc current).state = .running)
      (found : findUnused t = some slot)
      (gone : (after.proc slot).state = .unused)
      (elsewhere : SameElsewhere t after slot)
      (total : after.totalTickets = wrapInt (t.totalTickets + weight t current)) :
      AccountStep t after (.fork current true false)
  | sold {slot : Slot} (live : Live (t.proc slot)) (dead : ¬ Live (after.proc slot))
      (elsewhere : SameElsewhere t after slot)
      (total : after.totalTickets = wrapInt (t.totalTickets - (t.proc slot).tickets)) :
      AccountStep t after (.exit slot)
  | reniced {slot : Slot} {value : Int} (live : Live (t.proc slot))
      (still : Live (after.proc slot))
      (elsewhere : SameElsewhere t after slot)
      (lower : 100 ≤ (after.proc slot).nice) (upper : (after.proc slot).nice ≤ 139)
      (tickets : (after.proc slot).tickets = weight after slot)
      (total : after.totalTickets = wrapInt
        (wrapInt (t.totalTickets - (t.proc slot).tickets) + weight after slot)) :
      AccountStep t after (.nice slot value)

theorem allocproc_account (niced : WellNiced t) (running : (t.proc current).state = .running)
    (found : findUnused t = some slot) : ∃ a, allocproc t (some current) true = (some slot, a) ∧
      (∀ other, other ≠ slot → a.proc other = t.proc other) ∧
      a.proc slot = { t.proc slot with
        state := .embryo, pid := t.nextpid, nice := 120, tickets := weight t current } ∧
      a.totalTickets = wrapInt (t.totalTickets + weight t current) := by
  have different : current ≠ slot := by
    intro same
    rw [same, find_unused_state found] at running
    cases running
  have range := niced current (live_of_running running)
  have keeps := ticket_amount_keeps_proc _ range.1 range.2
  refine ⟨_, by simp only [allocproc, found]; rfl, ?_, ?_, ?_⟩
  · intro other away
    by_cases parent : other = current
    · subst parent
      simp [buyTickets, setProc, away, keeps]
    · simp [buyTickets, setProc, away, parent]
  · simp [buyTickets, setProc, different, different.symm, weight]
  · simp [buyTickets, setProc, different, weight]

theorem fork_account (niced : WellNiced t) (running : (t.proc current).state = .running)
    (kstack uvm : Bool) :
    AccountStep t (fork t current kstack uvm).2 (.fork current kstack uvm) := by
  cases found : findUnused t with
  | none =>
    apply AccountStep.quiet
    simpa [fork, allocproc, found] using quiet_refl t
  | some slot =>
    have free := find_unused_state found
    cases kstack with
    | false =>
      apply AccountStep.quiet
      refine ⟨by simp [fork, allocproc, found, setProc], fun other => ?_⟩
      by_cases here : other = slot
      · subst here
        simp [fork, allocproc, found, setProc, SameAccount, Live, free]
      · simp [fork, allocproc, found, setProc, here, same_account_refl]
    | true =>
      obtain ⟨a, alloc, elsewhere, taken, total⟩ :=
        allocproc_account niced running found
      cases uvm with
      | false =>
        refine AccountStep.leaked running found ?_ ?_ ?_
        · simp [fork, alloc]
        · intro other away
          simp [fork, alloc, set_proc_other a slot other _ away, elsewhere other away,
            same_account_refl]
        · simpa [fork, alloc] using total
      | true =>
        refine AccountStep.bought running free ?_ ?_ ?_ ?_ ?_
        · simp [fork, alloc, Live]
        · intro other away
          simp [fork, alloc, set_proc_other a slot other _ away, elsewhere other away,
            same_account_refl]
        · simp [fork, alloc, taken]
        · simp [fork, alloc, taken]
        · simpa [fork, alloc] using total

theorem exit_account (running : (t.proc current).state = .running)
    (exited : exit t current = some after) : AccountStep t after (.exit current) := by
  unfold exit at exited
  split_ifs at exited with init
  cases exited
  have quiet := (quiet_wakeup1 t ((t.proc current).parent.map .proc)).trans
    (quiet_pass_children current (List.finRange nproc) _)
  refine AccountStep.sold (live_of_running running) (by simp [Live]) ?_ ?_
  · intro other away
    simpa [setProc, away] using quiet.2 other
  · simp only [quiet.1, (quiet.2 current).1]

theorem update_nice_in_range (t : Ptable) (current : Slot) (value : Int) (lower : -20 ≤ value)
    (upper : value ≤ 19) :
    let amount := (getTicketAmount { t.proc current with nice := 120 + value }).1
    updateNice t current value =
      { setProc t current { t.proc current with nice := 120 + value, tickets := amount } with
        totalTickets := wrapInt
          (wrapInt (t.totalTickets - (t.proc current).tickets) + amount) } := by
  intro amount
  have keeps := ticket_amount_keeps_proc { t.proc current with nice := 120 + value }
    (show 100 ≤ 120 + value by omega) (show 120 + value ≤ 139 by omega)
  simp only at keeps
  simp only [updateNice, keeps, amount]

theorem nice_account (running : (t.proc current).state = .running) (value : Int) :
    AccountStep t (sysNice t current value).2 (.nice current value) := by
  unfold sysNice
  split_ifs with refused
  · exact AccountStep.quiet (quiet_refl t)
  · -- the argument check keeps the new nice value in the table's range
    simp only [update_nice_in_range t current value (by omega) (by omega)]
    have amount := ticket_amount_of_nice
      { t.proc current with
        nice := 120 + value
        tickets := (getTicketAmount { t.proc current with nice := 120 + value }).1 }
      { t.proc current with nice := 120 + value } rfl
    refine AccountStep.reniced (live_of_running running) ?_ ?_ ?_ ?_ ?_ ?_
    · simp [setProc, Live, running]
    · intro other away
      simp [setProc, away, same_account_refl]
    · simp only [setProc, update_self]
      omega
    · simp only [setProc, update_self]
      omega
    · simp only [setProc, weight, update_self, amount]
    · simp only [setProc, weight, update_self, amount]

theorem step_account (niced : WellNiced t) (taken : step t action = some after) :
    AccountStep t after action := by
  cases action with
  | fork current kstack uvm =>
    simp only [step] at taken
    split_ifs at taken with running
    cases taken
    exact fork_account niced running kstack uvm
  | nice current value =>
    simp only [step] at taken
    split_ifs at taken with running
    cases taken
    exact nice_account running value
  | exit current =>
    simp only [step] at taken
    split_ifs at taken with running
    exact exit_account running taken
  | wait current =>
    simp only [step] at taken
    split_ifs at taken with running
    cases taken
    exact AccountStep.quiet (quiet_wait t current running)
  | sleep current chan =>
    simp only [step] at taken
    split_ifs at taken with running
    cases taken
    exact AccountStep.quiet
      (quiet_set_proc t current _ ⟨rfl, rfl, by simp [Live, running]⟩)
  | yield current =>
    simp only [step] at taken
    split_ifs at taken with running
    cases taken
    exact AccountStep.quiet
      (quiet_set_proc t current _ ⟨rfl, rfl, by simp [Live, running]⟩)
  | wakeup chan =>
    cases taken
    exact AccountStep.quiet (quiet_wakeup1 t (some chan))
  | kill pid =>
    cases taken
    exact AccountStep.quiet (quiet_kill t pid)
  | lottery random =>
    simp only [step, scan_eq_draw niced] at taken
    cases drawn : draw (weight t) random
        ((List.finRange nproc).filter fun slot => (t.proc slot).state = .runnable) 0 with
    | none =>
      simp only [drawn, Option.some.injEq] at taken
      exact AccountStep.quiet (taken ▸ quiet_refl t)
    | some slot =>
      simp only [drawn, Option.some.injEq] at taken
      have runnable : (t.proc slot).state = .runnable := by
        simpa using (List.mem_filter.mp (draw_mem _ _ _ _ _ drawn)).2
      subst taken
      exact AccountStep.quiet
        (quiet_set_proc t slot _ ⟨rfl, rfl, by simp [Live, runnable]⟩)
  | roundRobin slot =>
    simp only [step] at taken
    split_ifs at taken with runnable
    cases taken
    exact AccountStep.quiet
      (quiet_set_proc t slot _ ⟨rfl, rfl, by simp [Live, runnable]⟩)

theorem well_niced_preserved (niced : WellNiced t) (taken : step t action = some after) :
    WellNiced after := by
  have elsewhere : ∀ slot, SameElsewhere t after slot →
      (Live (after.proc slot) →
        100 ≤ (after.proc slot).nice ∧ (after.proc slot).nice ≤ 139) → WellNiced after := by
    intro slot same here other live
    by_cases at_slot : other = slot
    · subst at_slot
      exact here live
    · have account := same other at_slot
      rw [account.2.1]
      exact niced other (account.2.2.mp live)
  cases step_account niced taken with
  | quiet same =>
    intro slot live
    rw [(same.2 slot).2.1]
    exact niced slot ((same.2 slot).2.2.mp live)
  | bought running free live same nice tickets total =>
    exact elsewhere _ same fun _ => by omega
  | leaked running found gone same total =>
    exact elsewhere _ same fun live => absurd gone live.1
  | sold live dead same total =>
    exact elsewhere _ same fun live => absurd live dead
  | reniced live still same lower upper tickets total =>
    exact elsewhere _ same fun _ => ⟨lower, upper⟩

/-- No `fork` fails once `allocproc` has succeeded. -/
def UvmSucceeds (t : Ptable) (action : Action) : Prop :=
  ∀ current, action = .fork current true false → findUnused t = none

structure ExactAccount (t : Ptable) : Prop where
  niced : WellNiced t
  total : t.totalTickets = heldTickets t
  few : ∀ slot, held (t.proc slot) ≤ 6

theorem held_tickets_bound (few : ∀ slot, held (t.proc slot) ≤ 6) : heldTickets t ≤ 384 := by
  have bound := Finset.sum_le_card_nsmul Finset.univ (fun slot => held (t.proc slot)) 6
    (fun slot _ => few slot)
  have count : Finset.card (Finset.univ : Finset Slot) • 6 = 384 := by
    rw [Finset.card_univ, Fintype.card_fin]
    rfl
  exact bound.trans_eq count

theorem few_elsewhere (few : ∀ other, held (t.proc other) ≤ 6) (same : SameElsewhere t after slot)
    (here : held (after.proc slot) ≤ 6) (other : Slot) : held (after.proc other) ≤ 6 := by
  by_cases at_slot : other = slot
  · subst at_slot
    exact here
  · rw [held_of_same_account (same other at_slot)]
    exact few other

theorem exact_account_preserved (account : ExactAccount t) (succeeds : UvmSucceeds t action)
    (taken : step t action = some after) : ExactAccount after := by
  have niced := well_niced_preserved account.niced taken
  have total := account.total
  have few := account.few
  cases step_account account.niced taken with
  | quiet same =>
    refine ⟨niced, ?_, fun slot => ?_⟩
    · rw [same.1, same.held_tickets, total]
    · rw [held_of_same_account (same.2 slot)]
      exact few slot
  | @bought current slot running free live same nice tickets paid =>
    have amount := ticket_amount_bounds (t.proc current)
    have before : held (t.proc slot) = 0 := by simp [held, Live, free]
    have now : held (after.proc slot) = weight t current := by simp [held, live, tickets]
    have sum := held_tickets_elsewhere same
    have small : ∀ other, held (after.proc other) ≤ 6 :=
      few_elsewhere few same (by rw [now]; exact amount.2)
    have bound := held_tickets_bound small
    refine ⟨niced, ?_, small⟩
    rw [paid, wrap_int_of_bounds] <;> omega
  | leaked running found gone same paid =>
    rw [succeeds _ rfl] at found
    cases found
  | @sold slot live dead same paid =>
    have before : held (t.proc slot) = (t.proc slot).tickets := by simp [held, live]
    have now : held (after.proc slot) = 0 := by simp [held, dead]
    have sum := held_tickets_elsewhere same
    have small : ∀ other, held (after.proc other) ≤ 6 := few_elsewhere few same (by omega)
    have bound := held_tickets_bound few
    refine ⟨niced, ?_, small⟩
    rw [paid, wrap_int_of_bounds] <;> omega
  | @reniced slot value live still same lower upper tickets paid =>
    have amount := ticket_amount_bounds (after.proc slot)
    have before : held (t.proc slot) = (t.proc slot).tickets := by simp [held, live]
    have now : held (after.proc slot) = weight after slot := by simp [held, still, tickets]
    have sum := held_tickets_elsewhere same
    have small : ∀ other, held (after.proc other) ≤ 6 :=
      few_elsewhere few same (by rw [now]; exact amount.2)
    have mine := held_le_held_tickets t slot
    have bound := held_tickets_bound few
    have boundAfter := held_tickets_bound small
    refine ⟨niced, ?_, small⟩
    rw [paid, wrap_int_of_bounds (t.totalTickets - _), wrap_int_of_bounds] <;> omega

theorem userinit_exact : ExactAccount userinit := by
  refine ⟨?_, ?_, ?_⟩
  · unfold WellNiced
    decide
  · decide
  · decide

/-- In every run without a `fork` that fails after `allocproc`, the counter is the
sum of the tickets of the processes that are neither unused nor zombie. -/
theorem total_tickets_exact {t : Ptable} (reached : Reaches step UvmSucceeds userinit t) :
    t.totalTickets = heldTickets t :=
  (reaches_invariant ExactAccount userinit_exact
    (fun _ _ _ account succeeds taken => exact_account_preserved account succeeds taken)
    reached).total

theorem total_tickets_after_one_fork :
    ∃ t, Reaches step UvmSucceeds userinit t ∧ heldTickets t = 6 ∧
      t.totalTickets = heldTickets t := by
  obtain ⟨t, ran, six⟩ := exists_of_run step userinit [.roundRobin 0, .fork 0 true true]
    (fun t => decide (heldTickets t = 6)) (by decide)
  have guarded : AllGuarded step UvmSucceeds userinit [.roundRobin 0, .fork 0 true true] :=
    ⟨nofun, fun _ _ => ⟨nofun, fun _ _ => trivial⟩⟩
  have reached := reaches_of_run guarded ran
  exact ⟨t, reached, of_decide_eq_true six, total_tickets_exact reached⟩

/-- The init process forks and `cowuvm` returns 0: the slot is given back, its
three tickets are not. -/
theorem failed_fork_leaks_tickets :
    ¬ ∀ t, Reaches step (fun _ _ => True) userinit t → t.totalTickets = heldTickets t := by
  intro always
  have refuted := not_forall_reaches_of_run step userinit
    [.roundRobin 0, .fork 0 true false]
    (fun t => decide (t.totalTickets = heldTickets t)) (by decide)
  exact refuted fun t reached => decide_eq_true (always t reached)

/-- A process forks only while it holds at least the default number of tickets,
and the counter stays clear of the end of `int`. -/
def FairFork (t : Ptable) : Action → Prop
  | .fork current _ _ => (t.proc current).nice ≤ 129 ∧ t.totalTickets + 6 < 2 ^ 31
  | .nice _ _ => t.totalTickets + 6 < 2 ^ 31
  | _ => True

structure CoveredWeights (t : Ptable) : Prop where
  niced : WellNiced t
  covered : ∀ slot, Live (t.proc slot) → weight t slot ≤ (t.proc slot).tickets
  enough : (heldTickets t : Int) ≤ t.totalTickets
  small : t.totalTickets < 2 ^ 31

theorem covered_elsewhere
    (covered : ∀ other, Live (t.proc other) → weight t other ≤ (t.proc other).tickets)
    (same : SameElsewhere t after slot)
    (here : Live (after.proc slot) → weight after slot ≤ (after.proc slot).tickets) (other : Slot)
    (live : Live (after.proc other)) : weight after other ≤ (after.proc other).tickets := by
  by_cases at_slot : other = slot
  · subst at_slot
    exact here live
  · have account := same other at_slot
    rw [account.1, weight, ticket_amount_of_nice _ _ account.2.1]
    exact covered other (account.2.2.mp live)

theorem covered_weights_preserved (weights : CoveredWeights t) (fair : FairFork t action)
    (taken : step t action = some after) : CoveredWeights after := by
  have niced := well_niced_preserved weights.niced taken
  have covered := weights.covered
  have enough := weights.enough
  have small := weights.small
  cases step_account weights.niced taken with
  | quiet same =>
    refine ⟨niced, fun slot live => ?_, ?_, ?_⟩
    · have account := same.2 slot
      rw [account.1, weight, ticket_amount_of_nice _ _ account.2.1]
      exact covered slot (account.2.2.mp live)
    · rwa [same.1, same.held_tickets]
    · rwa [same.1]
  | @bought current slot running free live same nice tickets paid =>
    -- the child weighs the default three, and its parent paid at least that much
    have amount := ticket_amount_bounds (t.proc current)
    have parent := ticket_amount_at_least_default (t.proc current) fair.1
    have child := ticket_amount_default (after.proc slot) nice
    have before : held (t.proc slot) = 0 := by simp [held, Live, free]
    have now : held (after.proc slot) = weight t current := by simp [held, live, tickets]
    have sum := held_tickets_elsewhere same
    have room := fair.2
    simp only [weight] at now tickets paid
    have unwrapped : after.totalTickets =
        t.totalTickets + (getTicketAmount (t.proc current)).1 := by
      rw [paid, wrap_int_of_bounds] <;> omega
    refine ⟨niced, covered_elsewhere covered same fun _ => ?_, ?_, ?_⟩
    · simp only [weight]
      omega
    · omega
    · omega
  | @leaked current slot running found gone same paid =>
    have amount := ticket_amount_bounds (t.proc current)
    have free := find_unused_state found
    have before : held (t.proc slot) = 0 := by simp [held, Live, free]
    have now : held (after.proc slot) = 0 := by simp [held, Live, gone]
    have sum := held_tickets_elsewhere same
    have room := fair.2
    simp only [weight] at paid
    have unwrapped : after.totalTickets =
        t.totalTickets + (getTicketAmount (t.proc current)).1 := by
      rw [paid, wrap_int_of_bounds] <;> omega
    refine ⟨niced, covered_elsewhere covered same fun live => absurd gone live.1, ?_, ?_⟩
    · omega
    · omega
  | @sold slot live dead same paid =>
    have before : held (t.proc slot) = (t.proc slot).tickets := by simp [held, live]
    have now : held (after.proc slot) = 0 := by simp [held, dead]
    have sum := held_tickets_elsewhere same
    have unwrapped : after.totalTickets = t.totalTickets - (t.proc slot).tickets := by
      rw [paid, wrap_int_of_bounds] <;> omega
    refine ⟨niced, covered_elsewhere covered same fun live => absurd live dead, ?_, ?_⟩
    · omega
    · omega
  | @reniced slot value live still same lower upper tickets paid =>
    have amount := ticket_amount_bounds (after.proc slot)
    have before : held (t.proc slot) = (t.proc slot).tickets := by simp [held, live]
    have now : held (after.proc slot) = weight after slot := by simp [held, still, tickets]
    have sum := held_tickets_elsewhere same
    have mine := held_le_held_tickets t slot
    have room : t.totalTickets + 6 < 2 ^ 31 := fair
    simp only [weight] at now tickets paid
    have unwrapped : after.totalTickets = t.totalTickets - (t.proc slot).tickets +
        (getTicketAmount (after.proc slot)).1 := by
      rw [paid, wrap_int_of_bounds (t.totalTickets - _), wrap_int_of_bounds] <;> omega
    refine ⟨niced, covered_elsewhere covered same fun _ => ?_, ?_, ?_⟩
    · simp only [weight]
      omega
    · omega
    · omega

theorem userinit_covered : CoveredWeights userinit := by
  refine ⟨userinit_exact.niced, ?_, ?_, ?_⟩
  · unfold weight
    decide
  · decide
  · decide

theorem runnable_weights_le_held (weights : CoveredWeights t) :
    runnableTickets t ≤ heldTickets t := by
  rw [heldTickets, Fin.sum_univ_def]
  apply filtered_sum_le
  intro slot runnable
  have live := live_of_runnable (of_decide_eq_true runnable)
  simpa [held, live] using weights.covered slot live

/-- In every run whose forks are made by processes of nice value at most 129, each
runnable process is the winner of at least one draw. -/
theorem runnable_wins_some_draw {t : Ptable} (reached : Reaches step FairFork userinit t) (p : Slot)
    (runnable : (t.proc p).state = .runnable) :
    ∃ r : Nat, (r : Int) < t.totalTickets ∧ (scan t r).1 = some p := by
  have weights := reaches_invariant CoveredWeights userinit_covered
    (fun _ _ _ weights fair taken => covered_weights_preserved weights fair taken) reached
  have member : p ∈ (List.finRange nproc).filter fun slot => (t.proc slot).state = .runnable := by
    simp [runnable]
  obtain ⟨before, later, split⟩ := List.append_of_mem member
  have total := runnable_weights_le_held weights
  have positive := (ticket_amount_bounds (t.proc p)).1
  have enough := weights.enough
  simp only [runnableTickets, split, List.map_append, List.map_cons, List.sum_append,
    List.sum_cons] at total
  refine ⟨(before.map (weight t)).sum, ?_, ?_⟩
  · simp only [weight] at total ⊢
    omega
  · rw [scan_eq_draw weights.niced, split]
    exact draw_window (weight t) _ before later p 0 (by omega) (by simp only [weight]; omega)

theorem forked_child_wins_some_draw :
    ∃ t, Reaches step FairFork userinit t ∧ (t.proc 1).state = .runnable ∧
      ∃ r : Nat, (r : Int) < t.totalTickets ∧ (scan t r).1 = some 1 := by
  obtain ⟨t, ran, runnable⟩ := exists_of_run step userinit [.roundRobin 0, .fork 0 true true]
    (fun t => decide ((t.proc 1).state = .runnable)) (by decide)
  have guarded : AllGuarded step FairFork userinit [.roundRobin 0, .fork 0 true true] := by
    refine ⟨trivial, fun first taken => ⟨?_, fun _ _ => trivial⟩⟩
    cases taken
    exact ⟨by decide, by decide⟩
  have reached := reaches_of_run guarded ran
  exact ⟨t, reached, of_decide_eq_true runnable,
    runnable_wins_some_draw reached 1 (of_decide_eq_true runnable)⟩

/-- The init process lowers its priority to one ticket and forks twice. Each child
pays one ticket and weighs three, so the draws below three end before slot 2. -/
theorem niced_parent_starves_child : ¬ ∀ t, Reaches step (fun _ _ => True) userinit t →
      ∀ p, (t.proc p).state = .runnable →
        ∃ r : Nat, (r : Int) < t.totalTickets ∧ (scan t r).1 = some p := by
  intro always
  have refuted := not_forall_reaches_of_run step userinit
    [.roundRobin 0, .nice 0 19, .fork 0 true true, .fork 0 true true, .yield 0]
    (fun t => decide ((t.proc 2).state = .runnable →
      ∃ r < t.totalTickets.toNat, (scan t r).1 = some 2)) (by decide)
  apply refuted
  intro t reached
  apply decide_eq_true
  intro runnable
  obtain ⟨r, below, won⟩ := always t reached 2 runnable
  exact ⟨r, by omega, won⟩

end Xv6Hacks.LotteryAccounting
