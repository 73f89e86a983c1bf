import Xv6Hacks.ProcessLifecycle

/-!
# What a process is given and gives back

The steps of `ProcessLifecycle` seen as moves of a slot between four kinds: vacant, in
the making, live and zombie. Over these kinds, every pid that has been handed out belongs
to one slot or to one zombie that `wait` has returned, and every kernel stack and page
directory belongs to one slot until it is freed, once.
-/

namespace Xv6Hacks.ProcessLifecycle

open Function GuardedRuns
open Xv6Hacks.ProcTable hiding step Action

variable {p q : Slot} {t : Ptable} {s : State}

inductive Move (s : State) : State → Prop where
  | stirs (table : Ptable) (stirs : Stirs s.table table) : Move s { s with table := table }
  | waits (p : Slot) (isRunning : running s p)
      (childless : ∀ z, (s.table.proc z).parent = some p → (s.table.proc z).state ≠ .zombie) :
      Move s { s with table := sleep s.table p (.proc p) }
  | allocates (p np : Slot) (isRunning : running s p) (idle : s.forking p = none)
      (unused : (s.table.proc np).state = .unused) : Move s (allocSection s p np)
  | lacksStack (p np : Slot) (forks : s.forking p = some (np, .named)) : Move s (giveUp s p np)
  | givesStack (p np : Slot) (forks : s.forking p = some (np, .named)) :
      Move s (giveStack s p np)
  | lacksSpace (p np : Slot) (forks : s.forking p = some (np, .stacked)) :
      Move s (giveUp (freeStack s np) p np)
  | givesSpace (p np : Slot) (forks : s.forking p = some (np, .stacked)) :
      Move s (giveSpace s p np)
  | starts (p np : Slot) (forks : s.forking p = some (np, .spaced)) : Move s (startChild s p np)
  | exits (p : Slot) (table : Ptable) (isRunning : running s p) (idle : s.forking p = none)
      (exits : Exits p s.table table) :
      Move s { s with table := table, exited := (s.table.proc p).pid :: s.exited }
  | reaps (p child : Slot) (zombie : (s.table.proc child).state = .zombie)
      (found : zombieChild s.table p = some child) : Move s (reapChild s p child)

theorem zombie_child_state {child : Slot} (found : zombieChild t p = some child) :
    (t.proc child).state = .zombie := by
  have spec := List.find?_some found
  simp only [decide_eq_true_eq] at spec
  exact spec.2

theorem zombie_child_none (absent : zombieChild t p = none) (z : Slot)
    (child : (t.proc z).parent = some p) : (t.proc z).state ≠ .zombie := by
  intro zombie
  have spec := List.find?_eq_none.mp absent z (List.mem_finRange z)
  simp only [decide_eq_true_eq] at spec
  exact spec ⟨child, zombie⟩

theorem wait_reaps {child : Slot} (found : zombieChild t p = some child) :
    (wait t p).2 = setProc t child { t.proc child with
      state := .unused, pid := 0, parent := none, killed := false } := by
  unfold zombieChild at found
  unfold wait
  rw [found]

theorem Stirs.refl (t : Ptable) : Stirs t t := ⟨rfl, rfl, fun q => SameLife.refl q _⟩

theorem wait_moves (isRunning : running s p) (absent : zombieChild s.table p = none) :
    Move s { s with table := (wait s.table p).2 } := by
  have childless := zombie_child_none absent
  unfold zombieChild at absent
  unfold wait
  rw [absent]
  dsimp only
  split
  · exact .stirs s.table (Stirs.refl s.table)
  · exact .waits p isRunning childless

variable {next : State}

theorem step_moves {action : Action} (stepped : step s action = some next) : Move s next := by
  cases action with
  | allocproc p =>
    simp only [step] at stepped
    split at stepped
    next ready =>
      split at stepped
      · cases stepped
        exact .stirs s.table (Stirs.refl s.table)
      next np found =>
        cases stepped
        exact .allocates p np ready.1 ready.2 (find_unused_state found)
    next => cases stepped
  | noStack p =>
    simp only [step] at stepped
    split at stepped
    next np forks =>
      split at stepped
      · cases stepped
        exact .lacksStack p np forks
      · cases stepped
    next => cases stepped
  | stack p =>
    simp only [step] at stepped
    split at stepped
    next np forks =>
      split at stepped
      · cases stepped
        exact .givesStack p np forks
      · cases stepped
    next => cases stepped
  | noSpace p =>
    simp only [step] at stepped
    split at stepped
    next np forks =>
      split at stepped
      · cases stepped
        exact .lacksSpace p np forks
      · cases stepped
    next => cases stepped
  | space p =>
    simp only [step] at stepped
    split at stepped
    next np forks =>
      split at stepped
      · cases stepped
        exact .givesSpace p np forks
      · cases stepped
    next => cases stepped
  | runnable p =>
    simp only [step] at stepped
    split at stepped
    next np forks =>
      split at stepped
      · cases stepped
        exact .starts p np forks
      · cases stepped
    next => cases stepped
  | exit p =>
    simp only [step] at stepped
    split at stepped
    next ready =>
      obtain ⟨table, exited, rfl⟩ := Option.map_eq_some_iff.mp stepped
      exact .exits p table ready.1 ready.2 (exit_exits exited)
    next => cases stepped
  | wait p =>
    simp only [step] at stepped
    split at stepped
    next ready =>
      split at stepped
      next child found =>
        cases stepped
        exact .reaps p child (zombie_child_state found) found
      next absent =>
        cases stepped
        exact wait_moves ready.1 absent
    next => cases stepped
  | kill pid =>
    cases stepped
    exact .stirs _ (Stirs.kill s.table pid)
  | sleep p address =>
    simp only [step] at stepped
    split at stepped
    next ready =>
      cases stepped
      exact .stirs _ (Stirs.sleep ready.1 address)
    next => cases stepped
  | wakeup address =>
    cases stepped
    exact .stirs _ (Stirs.wakeup s.table _)
  | yield p =>
    simp only [step] at stepped
    split at stepped
    next isRunning =>
      cases stepped
      exact .stirs _ (Stirs.yield isRunning)
    next => cases stepped
  | dispatch p =>
    simp only [step] at stepped
    split at stepped
    next runnable =>
      cases stepped
      exact .stirs _ (Stirs.dispatch runnable)
    next => cases stepped

theorem family_move (family : Family s.table s.forking) (move : Move s next) :
    Family next.table next.forking := by
  cases move with
  | stirs table stirs => exact family.stirs stirs
  | waits p isRunning childless => exact family.sleep_in_wait isRunning childless
  | allocates p np isRunning idle unused =>
    have alive : Alive (s.table.proc p).state := .inr (.inr isRunning)
    have made := family.alloc alive unused s.table.nextpid
    exact made.transfer rfl (fun _ => rfl) (fun _ => .rfl) (fun _ _ _ => .rfl) made.waiting
  | lacksStack p np forks => exact family.give_up forks Phase.noConfusion
  | givesStack p np forks =>
    have bought := family.stirs (Stirs.buy_tickets s.table p np)
    exact bought.rename_phase forks Phase.noConfusion Phase.noConfusion
  | lacksSpace p np forks => exact family.give_up forks Phase.noConfusion
  | givesSpace p np forks => exact family.give_space forks
  | starts p np forks => exact family.start_child forks
  | exits p table isRunning idle exits =>
    have alive : Alive (s.table.proc p).state := .inr (.inr isRunning)
    exact family.exits exits alive idle
  | reaps p child zombie found =>
    change Family (wait s.table p).2 s.forking
    rw [wait_reaps found]
    exact family.reap zombie rfl rfl

inductive Kind where
  | vacant
  | embryo
  | live
  | zombie
  deriving DecidableEq, Repr

def kindOf : Procstate → Kind
  | .unused => .vacant
  | .embryo => .embryo
  | .zombie => .zombie
  | _ => .live

theorem kind_of_live {state : Procstate} : kindOf state = .live ↔ Alive state := by
  cases state <;> decide

theorem kind_of_zombie {state : Procstate} : kindOf state = .zombie ↔ state = .zombie := by
  cases state <;> decide

theorem SameLife.kind {slot : Slot} {before after : Proc} (same : SameLife slot before after) :
    kindOf after.state = kindOf before.state := by
  rcases same.state with kept | ⟨wasAlive, isAlive⟩
  · rw [kept]
  · rw [kind_of_live.mpr wasAlive, kind_of_live.mpr isAlive]

theorem Woken.kind {before after : Procstate} (woken : Woken before after) :
    kindOf after = kindOf before := by
  rcases woken with kept | ⟨wasAsleep, isAwake⟩
  · rw [kept]
  · rw [wasAsleep, isAwake]
    rfl

def kinds (t : Ptable) (q : Slot) : Kind := kindOf (t.proc q).state

def pids (t : Ptable) (q : Slot) : Int := (t.proc q).pid

theorem kinds_set_proc (t : Ptable) (slot : Slot) (proc : Proc) :
    kinds (setProc t slot proc) = update (kinds t) slot (kindOf proc.state) := by
  funext q
  simp only [kinds, set_proc_view, update_apply]
  split <;> rfl

theorem pids_set_proc (t : Ptable) (slot : Slot) (proc : Proc) :
    pids (setProc t slot proc) = update (pids t) slot proc.pid := by
  funext q
  simp only [pids, set_proc_view, update_apply]
  split <;> rfl

theorem Stirs.kinds {after : Ptable} (stirs : Stirs t after) :
    kinds after = ProcessLifecycle.kinds t := by
  funext q
  exact (stirs.each q).kind

theorem Stirs.pids {after : Ptable} (stirs : Stirs t after) :
    pids after = ProcessLifecycle.pids t := by
  funext q
  exact (stirs.each q).pid

theorem kinds_sleep (running : (t.proc p).state = .running) (chan : Chan) :
    kinds (sleep t p chan) = kinds t := by
  have kept : kindOf .sleeping = kinds t p := by
    unfold kinds
    rw [running]
    rfl
  unfold sleep
  rw [kinds_set_proc, kept, update_eq_self]

theorem pids_sleep (t : Ptable) (p : Slot) (chan : Chan) : pids (sleep t p chan) = pids t := by
  unfold sleep
  rw [pids_set_proc]
  exact update_eq_self p (pids t)

theorem Exits.kinds {after : Ptable} (exits : Exits p t after) :
    kinds after = update (ProcessLifecycle.kinds t) p .zombie := by
  funext q
  by_cases here : q = p
  · rw [here, update_self]
    exact kind_of_zombie.mpr exits.zombie
  · rw [update_of_ne here]
    exact (exits.state q here).kind

theorem Exits.pids {after : Ptable} (exits : Exits p t after) :
    pids after = ProcessLifecycle.pids t := by
  funext q
  exact exits.pid q

/-- The pids of `userinit` and of the first `forks` calls of `allocproc`. -/
def Issued (forks : Nat) (pid : Int) : Prop := ∃ k : Nat, k ≤ forks ∧ pid = wrapInt (k + 1)

theorem Issued.later {forks : Nat} {pid : Int} (issued : Issued forks pid) :
    Issued (forks + 1) pid := by
  obtain ⟨k, bound, named⟩ := issued
  exact ⟨k, by omega, named⟩

theorem wrap_int_injective {first second : Nat} (one : first < 2 ^ 32) (two : second < 2 ^ 32)
    (same : wrapInt first = wrapInt second) : first = second := by
  unfold wrapInt at same
  have residues := congrArg (· % ((2 ^ 32 : Nat) : Int)) same
  simp only [Int.bmod_emod] at residues
  omega

theorem not_issued_next {forks : Nat} (few : forks + 1 < 2 ^ 31) :
    ¬ Issued forks (wrapInt (forks + 2)) := by
  intro issued
  obtain ⟨k, bound, same⟩ := issued
  have equal := @wrap_int_injective (forks + 2) (k + 1) (by omega) (by omega) (by exact_mod_cast same)
  omega

/-- A pid that has been handed out is that of one slot or has been returned by one call
of `wait`. -/
structure Names (init : Slot) (kind : Slot → Kind) (pid : Slot → Int) (forks : Nat)
    (forked exited reaped : List Int) : Prop where
  issued : ∀ q, kind q ≠ .vacant → Issued forks (pid q)
  distinct : ∀ q r, kind q ≠ .vacant → kind r ≠ .vacant → pid q = pid r → q = r
  unreaped : ∀ q, kind q ≠ .vacant → pid q ∉ reaped
  unstarted : ∀ q, kind q = .embryo → pid q ∉ forked
  started : ∀ q, kind q = .live ∨ kind q = .zombie → q ≠ init → pid q ∈ forked
  dead : ∀ q, kind q ≠ .vacant → (pid q ∈ exited ↔ kind q = .zombie)
  forkedIssued : ∀ n ∈ forked, Issued forks n
  exitedIssued : ∀ n ∈ exited, Issued forks n
  complete : ∀ n ∈ reaped, n ∈ forked ∧ n ∈ exited
  forkedOnce : forked.Nodup
  exitedOnce : exited.Nodup
  reapedOnce : reaped.Nodup

namespace Names

variable {init np : Slot} {kind : Slot → Kind} {pid : Slot → Int} {forks : Nat}
variable {forked exited reaped : List Int}

section
variable (names : Names init kind pid forks forked exited reaped)
include names

theorem name {fresh : Int} (isNew : ¬ Issued forks fresh) (isIssued : Issued (forks + 1) fresh) :
    Names init (update kind np .embryo) (update pid np fresh) (forks + 1) forked exited reaped := by
  refine { names with issued := ?_, distinct := ?_, unreaped := ?_, unstarted := ?_,
                      started := ?_, dead := ?_, forkedIssued := ?_, exitedIssued := ?_ }
  · intro q occupied
    by_cases here : q = np
    · rw [here, update_self]
      exact isIssued
    · rw [update_of_ne here] at occupied ⊢
      exact (names.issued q occupied).later
  · have other (r : Slot) (occupied : kind r ≠ .vacant) : pid r ≠ fresh := by
      intro same
      rw [← same] at isNew
      exact isNew (names.issued r occupied)
    intro q r occupiedQ occupiedR same
    by_cases atQ : q = np <;> by_cases atR : r = np
    · rw [atQ, atR]
    · rw [atQ, update_self, update_of_ne atR] at same
      rw [update_of_ne atR] at occupiedR
      exact absurd same.symm (other r occupiedR)
    · rw [atR, update_self, update_of_ne atQ] at same
      rw [update_of_ne atQ] at occupiedQ
      exact absurd same (other q occupiedQ)
    · rw [update_of_ne atQ, update_of_ne atR] at same
      rw [update_of_ne atQ] at occupiedQ
      rw [update_of_ne atR] at occupiedR
      exact names.distinct q r occupiedQ occupiedR same
  · intro q occupied
    by_cases here : q = np
    · rw [here, update_self]
      intro wrong
      exact isNew (names.forkedIssued _ (names.complete _ wrong).1)
    · rw [update_of_ne here] at occupied ⊢
      exact names.unreaped q occupied
  · intro q embryo
    by_cases here : q = np
    · rw [here, update_self]
      intro wrong
      exact isNew (names.forkedIssued _ wrong)
    · rw [update_of_ne here] at embryo ⊢
      exact names.unstarted q embryo
  · intro q state other
    by_cases here : q = np
    · rw [here, update_self] at state
      rcases state with wrong | wrong <;> cases wrong
    · rw [update_of_ne here] at state ⊢
      exact names.started q state other
  · intro q occupied
    by_cases here : q = np
    · rw [here, update_self, update_self]
      constructor
      · intro wrong
        exact absurd (names.exitedIssued _ wrong) isNew
      · intro wrong
        cases wrong
    · rw [update_of_ne here] at occupied
      rw [update_of_ne here, update_of_ne here]
      exact names.dead q occupied
  · exact fun n member => (names.forkedIssued n member).later
  · exact fun n member => (names.exitedIssued n member).later

theorem vacate {after : Slot → Int} (others : ∀ q, q ≠ np → after q = pid q) :
    Names init (update kind np .vacant) after forks forked exited reaped := by
  have different (q : Slot) (occupied : update kind np .vacant q ≠ .vacant) : q ≠ np := by
    intro here
    rw [here, update_self] at occupied
    exact occupied rfl
  have before (q : Slot) (other : q ≠ np) : update kind np .vacant q = kind q :=
    update_of_ne other _ _
  have occupant (q : Slot) (occupied : update kind np .vacant q ≠ .vacant) :
      kind q ≠ .vacant ∧ after q = pid q := by
    have other := different q occupied
    rw [before q other] at occupied
    exact ⟨occupied, others q other⟩
  refine { names with issued := ?_, distinct := ?_, unreaped := ?_, unstarted := ?_,
                      started := ?_, dead := ?_ }
  · intro q occupied
    obtain ⟨was, same⟩ := occupant q occupied
    rw [same]
    exact names.issued q was
  · intro q r occupiedQ occupiedR same
    obtain ⟨wasQ, sameQ⟩ := occupant q occupiedQ
    obtain ⟨wasR, sameR⟩ := occupant r occupiedR
    rw [sameQ, sameR] at same
    exact names.distinct q r wasQ wasR same
  · intro q occupied
    obtain ⟨was, same⟩ := occupant q occupied
    rw [same]
    exact names.unreaped q was
  · intro q embryo
    have other := different q (by rw [embryo]; exact Kind.noConfusion)
    rw [before q other] at embryo
    rw [others q other]
    exact names.unstarted q embryo
  · intro q state notInit
    have other := different q (by rcases state with isLive | isZombie <;> simp [*])
    rw [before q other] at state
    rw [others q other]
    exact names.started q state notInit
  · intro q occupied
    have other := different q occupied
    rw [before q other] at occupied ⊢
    rw [others q other]
    exact names.dead q occupied

theorem reap {after : Slot → Int} (others : ∀ q, q ≠ np → after q = pid q)
    (zombie : kind np = .zombie) (notInit : np ≠ init) :
    Names init (update kind np .vacant) after forks forked exited (pid np :: reaped) := by
  have occupied : kind np ≠ .vacant := by
    rw [zombie]
    exact Kind.noConfusion
  have vacated := names.vacate others
  refine { vacated with unreaped := ?_, complete := ?_, reapedOnce := ?_ }
  · intro q isOccupied
    have other : q ≠ np := by
      intro here
      rw [here, update_self] at isOccupied
      exact isOccupied rfl
    rw [List.mem_cons, not_or]
    refine ⟨?_, vacated.unreaped q isOccupied⟩
    intro same
    rw [others q other] at same
    rw [update_of_ne other] at isOccupied
    exact other (names.distinct q np isOccupied occupied same)
  · intro n member
    rcases List.mem_cons.mp member with here | earlier
    · rw [here]
      exact ⟨names.started np (.inr zombie) notInit, (names.dead np occupied).mpr zombie⟩
    · exact names.complete n earlier
  · exact List.nodup_cons.mpr ⟨names.unreaped np occupied, names.reapedOnce⟩

end

theorem occupied_update {next : Kind} (was : kind np ≠ .vacant)
    (occupied : update kind np next q ≠ .vacant) : kind q ≠ .vacant := by
  by_cases here : q = np
  · rw [here]
    exact was
  · rw [update_of_ne here] at occupied
    exact occupied

theorem start (names : Names init kind pid forks forked exited reaped)
    (embryo : kind np = .embryo) :
    Names init (update kind np .live) pid forks (pid np :: forked) exited reaped := by
  have was : kind np ≠ .vacant := by
    rw [embryo]
    exact Kind.noConfusion
  refine { names with issued := ?_, distinct := ?_, unreaped := ?_, unstarted := ?_,
                      started := ?_, dead := ?_, forkedIssued := ?_, complete := ?_,
                      forkedOnce := ?_ }
  · intro q occupied
    exact names.issued q (occupied_update was occupied)
  · intro q r occupiedQ occupiedR
    exact names.distinct q r (occupied_update was occupiedQ) (occupied_update was occupiedR)
  · intro q occupied
    exact names.unreaped q (occupied_update was occupied)
  · intro q isEmbryo
    have other : q ≠ np := by
      intro here
      rw [here, update_self] at isEmbryo
      cases isEmbryo
    rw [update_of_ne other] at isEmbryo
    rw [List.mem_cons, not_or]
    refine ⟨?_, names.unstarted q isEmbryo⟩
    intro same
    exact other (names.distinct q np (by rw [isEmbryo]; exact Kind.noConfusion) was same)
  · intro q state notInit
    by_cases here : q = np
    · rw [here]
      exact .head _
    · rw [update_of_ne here] at state
      exact .tail _ (names.started q state notInit)
  · intro q occupied
    have before := names.dead q (occupied_update was occupied)
    by_cases here : q = np
    · rw [here] at before ⊢
      rw [update_self, before, embryo]
      decide
    · rw [update_of_ne here]
      exact before
  · intro n member
    rcases List.mem_cons.mp member with here | earlier
    · rw [here]
      exact names.issued np was
    · exact names.forkedIssued n earlier
  · intro n member
    obtain ⟨inForked, inExited⟩ := names.complete n member
    exact ⟨.tail _ inForked, inExited⟩
  · exact List.nodup_cons.mpr ⟨names.unstarted np embryo, names.forkedOnce⟩

theorem exit (names : Names init kind pid forks forked exited reaped) (live : kind np = .live)
    (notInit : np ≠ init) :
    Names init (update kind np .zombie) pid forks forked (pid np :: exited) reaped := by
  have was : kind np ≠ .vacant := by
    rw [live]
    exact Kind.noConfusion
  refine { names with issued := ?_, distinct := ?_, unreaped := ?_, unstarted := ?_,
                      started := ?_, dead := ?_, exitedIssued := ?_, complete := ?_,
                      exitedOnce := ?_ }
  · intro q occupied
    exact names.issued q (occupied_update was occupied)
  · intro q r occupiedQ occupiedR
    exact names.distinct q r (occupied_update was occupiedQ) (occupied_update was occupiedR)
  · intro q occupied
    exact names.unreaped q (occupied_update was occupied)
  · intro q isEmbryo
    by_cases here : q = np
    · rw [here, update_self] at isEmbryo
      cases isEmbryo
    · rw [update_of_ne here] at isEmbryo
      exact names.unstarted q isEmbryo
  · intro q state other
    by_cases here : q = np
    · rw [here]
      exact names.started np (.inl live) notInit
    · rw [update_of_ne here] at state
      exact names.started q state other
  · intro q occupied
    have occupiedBefore := occupied_update was occupied
    by_cases here : q = np
    · rw [here, update_self]
      exact ⟨fun _ => rfl, fun _ => .head _⟩
    · rw [update_of_ne here, List.mem_cons, names.dead q occupiedBefore]
      constructor
      · intro either
        rcases either with same | zombie
        · exact absurd (names.distinct q np occupiedBefore was same) here
        · exact zombie
      · exact .inr
  · intro n member
    rcases List.mem_cons.mp member with here | earlier
    · rw [here]
      exact names.issued np was
    · exact names.exitedIssued n earlier
  · intro n member
    obtain ⟨inForked, inExited⟩ := names.complete n member
    exact ⟨inForked, .tail _ inExited⟩
  · refine List.nodup_cons.mpr ⟨?_, names.exitedOnce⟩
    rw [names.dead np was, live]
    exact Kind.noConfusion

end Names

theorem names_set_proc {init slot : Slot} {proc : Proc} {forks : Nat}
    {forked exited reaped : List Int}
    (names : Names init (update (kinds t) slot (kindOf proc.state)) (update (pids t) slot proc.pid)
    forks forked exited reaped) :
    Names init (kinds (setProc t slot proc)) (pids (setProc t slot proc)) forks forked exited
    reaped := by
  rw [kinds_set_proc, pids_set_proc]
  exact names

theorem names_move (family : Family s.table s.forking)
    (named : s.table.nextpid = wrapInt (s.forks + 2))
    (names : s.forks < 2 ^ 31 → Names s.table.initproc (kinds s.table) (pids s.table) s.forks
    s.forked s.exited (s.reaps.map Reap.pid)) (move : Move s next) :
    next.table.nextpid = wrapInt (next.forks + 2) ∧
    (next.forks < 2 ^ 31 → Names next.table.initproc (kinds next.table) (pids next.table)
    next.forks next.forked next.exited (next.reaps.map Reap.pid)) := by
  cases move with
  | stirs table stirs =>
    refine ⟨stirs.nextpid.trans named, ?_⟩
    intro few
    change Names table.initproc (kinds table) (pids table) _ _ _ _
    rw [stirs.init, stirs.kinds, stirs.pids]
    exact names few
  | waits p isRunning childless =>
    refine ⟨named, ?_⟩
    intro few
    change Names _ (kinds (sleep s.table p _)) (pids (sleep s.table p _)) _ _ _ _
    rw [kinds_sleep isRunning, pids_sleep]
    exact names few
  | allocates p np isRunning idle unused =>
    have following : wrapInt (s.table.nextpid + 1) = wrapInt ((s.forks + 1 : Nat) + 2) := by
      rw [named]
      unfold wrapInt
      rw [Int.bmod_add_bmod]
      congr 1
    refine ⟨following, ?_⟩
    intro few
    have fewer : s.forks + 1 < 2 ^ 31 := few
    have isNew : ¬ Issued s.forks s.table.nextpid := by
      rw [named]
      exact not_issued_next fewer
    have isIssued : Issued (s.forks + 1) s.table.nextpid := by
      refine ⟨s.forks + 1, le_rfl, ?_⟩
      rw [named]
      congr 1
    exact names_set_proc ((names (by omega)).name isNew isIssued)
  | lacksStack p np forks =>
    refine ⟨named, ?_⟩
    intro few
    refine names_set_proc ((names few).vacate ?_)
    intro q other
    exact update_of_ne other _ _
  | givesStack p np forks =>
    have stirs := Stirs.buy_tickets s.table p np
    refine ⟨stirs.nextpid.trans named, ?_⟩
    intro few
    change Names _ (kinds (buyTickets s.table (some p) np))
      (pids (buyTickets s.table (some p) np)) _ _ _ _
    rw [stirs.kinds, stirs.pids]
    exact names few
  | lacksSpace p np forks =>
    refine ⟨named, ?_⟩
    intro few
    refine names_set_proc ((names few).vacate ?_)
    intro q other
    exact update_of_ne other _ _
  | givesSpace p np forks =>
    refine ⟨named, ?_⟩
    intro few
    apply names_set_proc
    change Names _ (update _ np (kinds s.table np))
      (update _ np (pids s.table np)) _ _ _ _
    rw [update_eq_self, update_eq_self]
    exact names few
  | starts p np forks =>
    refine ⟨named, ?_⟩
    intro few
    have embryo : kinds s.table np = .embryo := by
      unfold kinds
      rw [family.forkChild p np _ forks]
      rfl
    apply names_set_proc
    change Names _ _ (update _ np (pids s.table np)) _ _ _ _
    rw [update_eq_self]
    exact (names few).start embryo
  | exits p table isRunning idle exits =>
    refine ⟨exits.nextpid.trans named, ?_⟩
    intro few
    have live : kinds s.table p = .live := kind_of_live.mpr (.inr (.inr isRunning))
    change Names table.initproc (kinds table) (pids table) _ _ _ _
    rw [exits.init, exits.kinds, exits.pids]
    exact (names few).exit live exits.notInit
  | reaps p child zombie found =>
    have isInit : child ≠ s.table.initproc := by
      intro same
      have alive := family.init
      rw [← same, zombie] at alive
      exact not_alive_zombie alive
    have result : (reapChild s p child).table = setProc s.table child
        { s.table.proc child with
          state := .unused, pid := 0, parent := none, killed := false } := wait_reaps found
    rw [result]
    refine ⟨named, ?_⟩
    intro few
    refine names_set_proc ((names few).reap ?_ (kind_of_zombie.mpr zombie) isInit)
    intro q other
    exact update_of_ne other _ _

/-- What the owners hold has been allocated below `next`, is held by one owner and has
not been freed; nothing has been freed twice. -/
structure Owned {α : Type} (holds : α → Prop) (address : α → Nat) (next : Nat)
    (freed : List Nat) : Prop where
  below : ∀ q, holds q → address q < next
  distinct : ∀ q r, holds q → holds r → address q = address r → q = r
  kept : ∀ q, holds q → address q ∉ freed
  freedBelow : ∀ n ∈ freed, n < next
  once : freed.Nodup

namespace Owned

variable {α : Type} {holds after : α → Prop} {address : α → Nat} {next : Nat} {freed : List Nat}

section
variable (owned : Owned holds address next freed)
include owned

theorem fewer (sub : ∀ q, after q → holds q) : Owned after address next freed where
  below := fun q held => owned.below q (sub q held)
  distinct := fun q r heldQ heldR => owned.distinct q r (sub q heldQ) (sub r heldR)
  kept := fun q held => owned.kept q (sub q held)
  freedBelow := owned.freedBelow
  once := owned.once

theorem later : Owned holds address (next + 1) freed where
  below := fun q held => Nat.lt_succ_of_lt (owned.below q held)
  distinct := owned.distinct
  kept := owned.kept
  freedBelow := fun n member => Nat.lt_succ_of_lt (owned.freedBelow n member)
  once := owned.once

theorem release {slot : α} (held : holds slot) {forgotten : α → Nat}
    (others : ∀ q, q ≠ slot → forgotten q = address q) (sub : ∀ q, after q → q ≠ slot ∧ holds q) :
    Owned after forgotten next (address slot :: freed) := by
  have same (q : α) (holdsQ : after q) : forgotten q = address q := others q (sub q holdsQ).1
  constructor
  case below =>
    intro q holdsQ
    rw [same q holdsQ]
    exact owned.below q (sub q holdsQ).2
  case distinct =>
    intro q r holdsQ holdsR equal
    rw [same q holdsQ, same r holdsR] at equal
    exact owned.distinct q r (sub q holdsQ).2 (sub r holdsR).2 equal
  case kept =>
    intro q holdsQ
    rw [same q holdsQ, List.mem_cons, not_or]
    refine ⟨?_, owned.kept q (sub q holdsQ).2⟩
    intro equal
    exact (sub q holdsQ).1 (owned.distinct q slot (sub q holdsQ).2 held equal)
  case freedBelow =>
    intro n member
    rcases List.mem_cons.mp member with here | earlier
    · rw [here]
      exact owned.below slot held
    · exact owned.freedBelow n earlier
  case once => exact List.nodup_cons.mpr ⟨owned.kept slot held, owned.once⟩

theorem allocate [DecidableEq α] {slot : α} (sub : ∀ q, after q → q ≠ slot → holds q) :
    Owned after (update address slot next) (next + 1) freed := by
  have old (q : α) (held : after q) (other : q ≠ slot) : address q < next :=
    owned.below q (sub q held other)
  constructor
  case below =>
    intro q held
    by_cases here : q = slot
    · rw [here, update_self]
      exact Nat.lt_succ_self next
    · rw [update_of_ne here]
      exact Nat.lt_succ_of_lt (old q held here)
  case distinct =>
    intro q r heldQ heldR same
    by_cases atQ : q = slot <;> by_cases atR : r = slot
    · rw [atQ, atR]
    · rw [atQ, update_self, update_of_ne atR] at same
      exact absurd same.symm (Nat.ne_of_lt (old r heldR atR))
    · rw [atR, update_self, update_of_ne atQ] at same
      exact absurd same (Nat.ne_of_lt (old q heldQ atQ))
    · rw [update_of_ne atQ, update_of_ne atR] at same
      exact owned.distinct q r (sub q heldQ atQ) (sub r heldR atR) same
  case kept =>
    intro q held
    by_cases here : q = slot
    · rw [here, update_self]
      intro member
      exact lt_irrefl next (owned.freedBelow next member)
    · rw [update_of_ne here]
      exact owned.kept q (sub q held here)
  case freedBelow => exact fun n member => Nat.lt_succ_of_lt (owned.freedBelow n member)
  case once => exact owned.once

end
end Owned

/-- The slots that own a kernel stack, and with `phase` at `.spaced` a page directory. -/
def Holds (kind : Slot → Kind) (forking : Forking) (phases : List Phase) (q : Slot) : Prop :=
  kind q = .live ∨ kind q = .zombie ∨ ∃ p, ∃ phase ∈ phases, forking p = some (q, phase)

abbrev HasStack (s : State) : Slot → Prop :=
  Holds (kinds s.table) s.forking [.stacked, .spaced]

abbrev HasDir (s : State) : Slot → Prop := Holds (kinds s.table) s.forking [.spaced]

section Holding
variable {kind : Slot → Kind} {forking next : Forking} {phases : List Phase} {p np q : Slot}

theorem holds_idle {idle : Kind} (notLive : idle ≠ .live) (notZombie : idle ≠ .zombie)
    (forks : ∀ r child phase, next r = some (child, phase) → phase ∈ phases →
    child ≠ np ∧ forking r = some (child, phase))
    (holds : Holds (update kind np idle) next phases q) : q ≠ np ∧ Holds kind forking phases q := by
  have kept {state : Kind} (different : idle ≠ state)
      (is : update kind np idle q = state) : q ≠ np ∧ kind q = state := by
    by_cases here : q = np
    · rw [here, update_self] at is
      exact absurd is different
    · rw [update_of_ne here] at is
      exact ⟨here, is⟩
  rcases holds with live | zombie | ⟨r, phase, member, inFork⟩
  · obtain ⟨other, before⟩ := kept notLive live
    exact ⟨other, .inl before⟩
  · obtain ⟨other, before⟩ := kept notZombie zombie
    exact ⟨other, .inr (.inl before)⟩
  · obtain ⟨other, before⟩ := forks r q phase inFork member
    exact ⟨other, .inr (.inr ⟨r, phase, member, before⟩)⟩

theorem holds_phase {phase : Phase}
    (holds : Holds kind (update forking p (some (np, phase))) phases q)
    (new : q = np → phase ∈ phases → Holds kind forking phases q) :
    Holds kind forking phases q := by
  rcases holds with live | zombie | ⟨r, other, member, inFork⟩
  · exact .inl live
  · exact .inr (.inl zombie)
  · rcases update_forking inFork with ⟨-, here⟩ | ⟨-, before⟩
    · cases here
      exact new rfl member
    · exact .inr (.inr ⟨r, other, member, before⟩)

theorem holds_update {state : Kind} (sub : ∀ r child phase, next r = some (child, phase) →
    forking r = some (child, phase)) (held : Holds kind forking phases np)
    (holds : Holds (update kind np state) next phases q) : Holds kind forking phases q := by
  by_cases here : q = np
  · rw [here]
    exact held
  · unfold Holds at holds
    rw [update_of_ne here] at holds
    rcases holds with live | zombie | ⟨r, phase, member, inFork⟩
    · exact .inl live
    · exact .inr (.inl zombie)
    · exact .inr (.inr ⟨r, phase, member, sub r q phase inFork⟩)

end Holding

/-- The owners of both kinds of pages, and the pages of the zombies that have been
returned. -/
structure Pages (s : State) : Prop where
  kstack : Owned (HasStack s) s.kstack s.nextPage s.freedStacks
  pgdir : Owned (HasDir s) s.pgdir s.nextPage s.freedDirs
  logged : ∀ r ∈ s.reaps, r.kstack ∈ s.freedStacks ∧ r.pgdir ∈ s.freedDirs

theorem given_up_forks {forking : Forking} (family : Family t forking) {np : Slot} {phase : Phase}
    (forks : forking p = some (np, phase)) (r child : Slot) (later : Phase)
    (inFork : update forking p none r = some (child, later)) :
    child ≠ np ∧ forking r = some (child, later) := by
  rcases update_forking inFork with ⟨-, wrong⟩ | ⟨other, before⟩
  · cases wrong
  · exact ⟨family.fork_other forks other before, before⟩

theorem Pages.same_kinds (pages : Pages s) {table : Ptable} (same : kinds table = kinds s.table) :
    Pages { s with table := table } := by
  refine ⟨?_, ?_, pages.logged⟩
  · apply pages.kstack.fewer
    intro q holds
    simp only [HasStack, same] at holds
    exact holds
  · apply pages.pgdir.fewer
    intro q holds
    simp only [HasDir, same] at holds
    exact holds

theorem holds_given_up (family : Family s.table s.forking) {np : Slot} {phase : Phase}
    (forks : s.forking p = some (np, phase)) {phases : List Phase}
    (holds : Holds (kinds (giveUp s p np).table) (giveUp s p np).forking phases q) :
    q ≠ np ∧ Holds (kinds s.table) s.forking phases q := by
  change Holds (kinds (setProc _ _ _)) _ _ _ at holds
  rw [kinds_set_proc] at holds
  apply holds_idle Kind.noConfusion Kind.noConfusion _ holds
  intro r child later inFork _
  exact given_up_forks family forks r child later inFork

theorem pages_move (family : Family s.table s.forking) (pages : Pages s)
    (move : Move s next) : Pages next := by
  cases move with
  | stirs table stirs => exact pages.same_kinds stirs.kinds
  | waits p isRunning childless => exact pages.same_kinds (kinds_sleep isRunning (.proc p))
  | allocates p np isRunning idle unused =>
    have before (phases : List Phase) (later : Phase.named ∉ phases) (q : Slot)
        (holds : Holds (kinds (allocSection s p np).table) (allocSection s p np).forking
          phases q) : Holds (kinds s.table) s.forking phases q := by
      change Holds (kinds (setProc _ _ _)) _ _ _ at holds
      rw [kinds_set_proc] at holds
      refine (holds_idle Kind.noConfusion Kind.noConfusion ?_ holds).2
      intro r child phase inFork member
      rcases update_forking inFork with ⟨-, new⟩ | ⟨-, before⟩
      · cases new
        exact absurd member later
      · refine ⟨?_, before⟩
        intro same
        have embryo := family.forkChild r child phase before
        rw [same, unused] at embryo
        cases embryo
    exact ⟨pages.kstack.fewer (before _ (by decide)), pages.pgdir.fewer (before _ (by decide)),
      pages.logged⟩
  | lacksStack p np forks =>
    refine ⟨pages.kstack.fewer ?_, pages.pgdir.fewer ?_, pages.logged⟩
    · intro q holds
      exact (holds_given_up family forks holds).2
    · intro q holds
      exact (holds_given_up family forks holds).2
  | givesStack p np forks =>
    have same := (Stirs.buy_tickets s.table p np).kinds
    refine ⟨pages.kstack.allocate ?_, pages.pgdir.later.fewer ?_, pages.logged⟩
    · intro q holds other
      change Holds (kinds (buyTickets s.table (some p) np)) _ _ _ at holds
      rw [same] at holds
      apply holds_phase holds
      intro here
      exact absurd here other
    · intro q holds
      change Holds (kinds (buyTickets s.table (some p) np)) _ _ _ at holds
      rw [same] at holds
      apply holds_phase holds
      intro _ wrong
      exact absurd wrong (by decide)
  | lacksSpace p np forks =>
    have held : HasStack s np := .inr (.inr ⟨p, .stacked, by decide, forks⟩)
    refine ⟨pages.kstack.release held ?_ ?_, pages.pgdir.fewer ?_, ?_⟩
    · intro q other
      exact update_of_ne other _ _
    · intro q holds
      exact holds_given_up family forks holds
    · intro q holds
      exact (holds_given_up family forks holds).2
    · intro r member
      obtain ⟨stack, dir⟩ := pages.logged r member
      exact ⟨.tail _ stack, dir⟩
  | givesSpace p np forks =>
    have same : kinds (giveSpace s p np).table = kinds s.table := by
      change kinds (setProc _ _ _) = _
      rw [kinds_set_proc]
      exact update_eq_self np (kinds s.table)
    refine ⟨pages.kstack.later.fewer ?_, pages.pgdir.allocate ?_, pages.logged⟩
    · intro q holds
      rw [HasStack, same] at holds
      apply holds_phase holds
      intro here _
      rw [here]
      exact .inr (.inr ⟨p, .stacked, by decide, forks⟩)
    · intro q holds other
      rw [HasDir, same] at holds
      apply holds_phase holds
      intro here
      exact absurd here other
  | starts p np forks =>
    have before (phases : List Phase) (spaced : Phase.spaced ∈ phases) (q : Slot)
        (holds : Holds (kinds (startChild s p np).table) (startChild s p np).forking phases q) :
        Holds (kinds s.table) s.forking phases q := by
      change Holds (kinds (setProc _ _ _)) _ _ _ at holds
      rw [kinds_set_proc] at holds
      refine holds_update ?_ (.inr (.inr ⟨p, .spaced, spaced, forks⟩)) holds
      intro r child phase inFork
      exact (given_up_forks family forks r child phase inFork).2
    exact ⟨pages.kstack.fewer (before _ (by decide)), pages.pgdir.fewer (before _ (by decide)),
      pages.logged⟩
  | exits p table isRunning idle exits =>
    have live : kinds s.table p = .live := kind_of_live.mpr (.inr (.inr isRunning))
    have before (phases : List Phase) (q : Slot) (holds : Holds (kinds table) s.forking phases q) :
        Holds (kinds s.table) s.forking phases q := by
      rw [exits.kinds] at holds
      exact holds_update (fun _ _ _ inFork => inFork) (.inl live) holds
    exact ⟨pages.kstack.fewer (before _), pages.pgdir.fewer (before _), pages.logged⟩
  | reaps p child zombie found =>
    have isZombie : kinds s.table child = .zombie := kind_of_zombie.mpr zombie
    have before (phases : List Phase) (q : Slot)
        (holds : Holds (kinds (reapChild s p child).table) s.forking phases q) :
        q ≠ child ∧ Holds (kinds s.table) s.forking phases q := by
      change Holds (kinds (wait s.table p).2) _ _ _ at holds
      rw [wait_reaps found, kinds_set_proc] at holds
      apply holds_idle Kind.noConfusion Kind.noConfusion _ holds
      intro r np phase inFork _
      refine ⟨?_, inFork⟩
      intro same
      have embryo := family.forkChild r np phase inFork
      rw [same, zombie] at embryo
      cases embryo
    refine ⟨pages.kstack.release (.inr (.inl isZombie)) ?_ (before _),
      pages.pgdir.release (.inr (.inl isZombie)) ?_ (before _), ?_⟩
    · intro q other
      exact update_of_ne other _ _
    · intro q _
      rfl
    · intro r member
      rcases List.mem_cons.mp member with here | earlier
      · rw [here]
        exact ⟨.head _, .head _⟩
      · obtain ⟨stack, dir⟩ := pages.logged r earlier
        exact ⟨.tail _ stack, .tail _ dir⟩

structure Lifecycle (s : State) : Prop where
  parent : ∀ q, (s.table.proc q).state ∈ [.sleeping, .runnable, .running, .zombie] →
    q ≠ s.table.initproc → ∃ p, (s.table.proc q).parent = some p ∧
      (s.table.proc p).state ≠ .unused ∧ (s.table.proc p).state ≠ .zombie
  forkedOnce : s.forked.Nodup
  returnedOnce : (s.reaps.map Reap.pid).Nodup
  returned : ∀ r ∈ s.reaps, r.pid ∈ s.forked ∧ r.pid ∈ s.exited
  exited : ∀ q, (s.table.proc q).state ≠ .unused →
    ((s.table.proc q).pid ∈ s.exited ↔ (s.table.proc q).state = .zombie)
  freedOnce : ∀ r ∈ s.reaps,
    s.freedStacks.count r.kstack = 1 ∧ s.freedDirs.count r.pgdir = 1
  unfreed : ∀ z, (s.table.proc z).state = .zombie →
    s.kstack z ∉ s.freedStacks ∧ s.pgdir z ∉ s.freedDirs
  awake : ∀ w z, (s.table.proc w).state = .sleeping → (s.table.proc w).chan = some (.proc w) →
    (s.table.proc z).parent = some w → (s.table.proc z).state ≠ .zombie

structure Ledger (s : State) : Prop where
  family : Family s.table s.forking
  nextpid : s.table.nextpid = wrapInt (s.forks + 2)
  names : s.forks < 2 ^ 31 → Names s.table.initproc (kinds s.table) (pids s.table) s.forks
    s.forked s.exited (s.reaps.map Reap.pid)
  pages : Pages s

theorem ledger_step {action : Action} (ledger : Ledger s)
    (stepped : step s action = some next) : Ledger next := by
  have move := step_moves stepped
  obtain ⟨nextpid, names⟩ := names_move ledger.family ledger.nextpid ledger.names move
  exact ⟨family_move ledger.family move, nextpid, names, pages_move ledger.family ledger.pages move⟩

/-! The state after `userinit`: one live process and no child in the making. -/

theorem find_unused_boot : findUnused bootTable = some 0 := rfl

theorem userinit_proc (q : Slot) : userinit.proc q =
    if q = 0 then { state := .runnable, pid := 1, parent := none, chan := none,
                    killed := false, nice := 120, tickets := 3 }
    else bootTable.proc q := by
  unfold userinit allocproc
  rw [find_unused_boot]
  simp only [buyTickets, if_true, set_proc_view]
  split <;> rfl

theorem userinit_unused (other : q ≠ 0) : (userinit.proc q).state = .unused := by
  rw [userinit_proc, if_neg other]
  rfl

theorem userinit_parent (q : Slot) : (userinit.proc q).parent = none := by
  rw [userinit_proc]
  split <;> rfl

theorem family_boot : Family boot.table boot.forking where
  init := .inr (.inl rfl)
  orphan := userinit_parent _
  parentAlive := by
    intro q p parent
    cases (userinit_parent q).symm.trans parent
  adopted := by
    intro q state other
    have unused : (boot.table.proc q).state = .unused := userinit_unused other
    rw [unused] at state
    exact absurd state (by decide)
  notSelf := by
    intro q parent
    cases (userinit_parent q).symm.trans parent
  vacant := fun q _ => userinit_parent q
  forkAlive := nofun
  forkChild := nofun
  forkParent := nofun
  forkOnce := nofun
  waiting := by
    intro w z _ _ parent
    cases (userinit_parent z).symm.trans parent

theorem kinds_boot (occupied : kinds boot.table q ≠ .vacant) : q = 0 := by
  by_contra other
  apply occupied
  change kindOf (userinit.proc q).state = .vacant
  rw [userinit_unused other]
  rfl

theorem names_boot : Names boot.table.initproc (kinds boot.table) (pids boot.table) 0 [] [] [] := by
  have live : kinds boot.table 0 = .live := rfl
  constructor
  case issued =>
    intro q occupied
    rw [kinds_boot occupied]
    exact ⟨0, le_refl 0, rfl⟩
  case distinct =>
    intro q r occupiedQ occupiedR _
    rw [kinds_boot occupiedQ, kinds_boot occupiedR]
  case unreaped => exact fun q _ => List.not_mem_nil
  case unstarted => exact fun q _ => List.not_mem_nil
  case started =>
    intro q state other
    refine absurd (kinds_boot ?_) other
    rcases state with isLive | isZombie
    · rw [isLive]
      exact Kind.noConfusion
    · rw [isZombie]
      exact Kind.noConfusion
  case dead =>
    intro q occupied
    rw [kinds_boot occupied, live]
    decide
  case forkedIssued => nofun
  case exitedIssued => nofun
  case complete => nofun
  case forkedOnce => exact List.nodup_nil
  case exitedOnce => exact List.nodup_nil
  case reapedOnce => exact List.nodup_nil

theorem pages_boot : Pages boot := by
  have owner (phases : List Phase) (q : Slot)
      (holds : Holds (kinds boot.table) boot.forking phases q) : q = 0 := by
    rcases holds with live | zombie | ⟨p, phase, member, forks⟩
    · exact kinds_boot (by rw [live]; exact Kind.noConfusion)
    · exact kinds_boot (by rw [zombie]; exact Kind.noConfusion)
    · cases forks
  have first (phases : List Phase) (address : Slot → Nat) (below : address 0 < 3) :
      Owned (Holds (kinds boot.table) boot.forking phases) address 3 [] := by
    constructor
    case below =>
      intro q holds
      rw [owner phases q holds]
      exact below
    case distinct =>
      intro q r holdsQ holdsR _
      rw [owner phases q holdsQ, owner phases r holdsR]
    case kept => exact fun q _ => List.not_mem_nil
    case freedBelow => nofun
    case once => exact List.nodup_nil
  exact ⟨first _ _ (by decide), first _ _ (by decide), nofun⟩

theorem ledger_boot : Ledger boot where
  family := family_boot
  nextpid := by decide
  names := fun _ => names_boot
  pages := pages_boot

theorem Ledger.lifecycle (ledger : Ledger s) (few : s.forks < 2 ^ 31) : Lifecycle s := by
  have names := ledger.names few
  have family := ledger.family
  constructor
  case parent =>
    intro q member other
    have state : Alive (s.table.proc q).state ∨ (s.table.proc q).state = .zombie := by
      simp only [List.mem_cons, List.not_mem_nil, or_false] at member
      unfold Alive
      tauto
    obtain ⟨p, isParent⟩ := Option.ne_none_iff_exists'.mp (family.adopted q state other)
    have alive := family.parentAlive q p isParent
    refine ⟨p, isParent, ?_, ?_⟩
    · intro unused
      rw [unused] at alive
      exact not_alive_unused alive
    · intro zombie
      rw [zombie] at alive
      exact not_alive_zombie alive
  case forkedOnce => exact names.forkedOnce
  case returnedOnce => exact names.reapedOnce
  case returned =>
    intro r member
    exact names.complete r.pid (List.mem_map_of_mem member)
  case exited =>
    intro q used
    have occupied : kinds s.table q ≠ .vacant := by
      unfold kinds
      revert used
      cases (s.table.proc q).state <;> decide
    rw [← kind_of_zombie]
    exact names.dead q occupied
  case freedOnce =>
    intro r member
    obtain ⟨stack, dir⟩ := ledger.pages.logged r member
    exact ⟨List.count_eq_one_of_mem ledger.pages.kstack.once stack,
      List.count_eq_one_of_mem ledger.pages.pgdir.once dir⟩
  case unfreed =>
    intro z zombie
    have isZombie : kinds s.table z = .zombie := kind_of_zombie.mpr zombie
    exact ⟨ledger.pages.kstack.kept z (.inr (.inl isZombie)),
      ledger.pages.pgdir.kept z (.inr (.inl isZombie))⟩
  case awake => exact family.waiting

theorem process_lifecycle {s : State} (reached : Reaches step (fun _ _ => True) boot s)
    (few : s.forks < 2 ^ 31) : Lifecycle s := by
  have ledger : Ledger s := by
    apply reaches_invariant Ledger ledger_boot _ reached
    intro before action after ledger _ stepped
    exact ledger_step ledger stepped
  exact ledger.lifecycle few

/-- The first process forks, waits for the child, and gets its pid after it has exited. -/
def forkAndWait : List Action :=
  [.dispatch 0, .allocproc 0, .stack 0, .space 0, .runnable 0, .wait 0, .dispatch 1, .exit 1,
   .dispatch 0, .wait 0]

theorem fork_and_wait_lifecycle :
    ∃ s, run step boot forkAndWait = some s ∧ s.reaps.map Reap.pid = [2] ∧ Lifecycle s := by
  obtain ⟨s, ran, summary⟩ := exists_of_run step boot forkAndWait
    (fun s => s.forks = 1 ∧ s.reaps.map Reap.pid = [2]) (by decide +kernel)
  simp only [decide_eq_true_eq] at summary
  refine ⟨s, ran, summary.2, process_lifecycle ?_ ?_⟩
  · exact reaches_of_run (all_guarded_trivial forkAndWait boot) ran
  · rw [summary.1]
    decide

end Xv6Hacks.ProcessLifecycle
