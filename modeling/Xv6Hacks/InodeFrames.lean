import Xv6Hacks.FileCalls

/-!
# Inodes held by one call

The inode layer as a call that runs alone sees it. `Frame` describes the state in the
middle of the call: the surroundings it was started in, what is on the disk now, which
references the call has taken since, and which inodes it has locked. Each operation of the
inode layer has one lemma that says what it does to a frame.
-/

namespace Xv6Hacks.FileCalls

open Function Outcomes Programs
open KernelFs (CacheSlot)

/-- `held` lists the references taken, each slot with its inode number, and `locks` the
slots locked. `outer` is the state around the call. An inode without links that is still
typed has a valid slot, so that the last `iput` frees it; `fresh` is the exception, an inode
that has just been allocated. -/
structure Frame (outer : Sys) (fresh : Option Nat) (nodes : Nat → Node)
    (held : List (CacheSlot × Nat)) (locks : List CacheSlot) (sys : Sys) : Prop where
  ftable : sys.ftable = outer.ftable
  procs : sys.procs = outer.procs
  initproc : sys.initproc = outer.initproc
  disk : sys.nodes = nodes
  refs : ∀ s, (sys.icache s).ref = (outer.icache s).ref + (held.map Prod.fst).count s
  homes : ∀ s, 0 < (outer.icache s).ref → (sys.icache s).inum = (outer.icache s).inum
  inums : ∀ s i, (s, i) ∈ held → (sys.icache s).inum = i
  unique : ∀ s t, 0 < (sys.icache s).ref → 0 < (sys.icache t).ref →
    (sys.icache s).inum = (sys.icache t).inum → s = t
  busy : ∀ s, 0 < (sys.icache s).ref → ((sys.icache s).busy = true ↔ s ∈ locks)
  locked : ∀ s ∈ locks, 0 < (sys.icache s).ref ∧ (sys.icache s).valid = true
  once : locks.Nodup
  copies : ∀ s, 0 < (sys.icache s).ref → (sys.icache s).valid = true →
    (sys.icache s).din = nodes (sys.icache s).inum ∧ (nodes (sys.icache s).inum).type ≠ 0
  kept : ∀ i, fresh ≠ some i → (nodes i).type ≠ 0 → (nodes i).nlink = 0 →
    ∃ s, 0 < (sys.icache s).ref ∧ (sys.icache s).inum = i ∧ (sys.icache s).valid = true

/-- The slot `s` may become `inode` when the call holds `taken` and has locked `busy`. -/
structure Fits (outer sys : Sys) (held : List (CacheSlot × Nat)) (locks : List CacheSlot)
    (s : CacheSlot) (inode : Inode) (taken : List (CacheSlot × Nat)) (busy : List CacheSlot) :
    Prop where
  refs : inode.ref = (outer.icache s).ref + (taken.map Prod.fst).count s
  otherRefs : ∀ t, t ≠ s → (taken.map Prod.fst).count t = (held.map Prod.fst).count t
  home : 0 < (outer.icache s).ref → inode.inum = (outer.icache s).inum
  inums : ∀ j, (s, j) ∈ taken → inode.inum = j
  otherInums : ∀ t j, t ≠ s → (t, j) ∈ taken → (t, j) ∈ held
  unique : 0 < inode.ref → ∀ t, t ≠ s → 0 < (sys.icache t).ref →
    (sys.icache t).inum ≠ inode.inum
  isBusy : 0 < inode.ref → (inode.busy = true ↔ s ∈ busy)
  otherBusy : ∀ t, t ≠ s → (t ∈ busy ↔ t ∈ locks)
  locked : s ∈ busy → 0 < inode.ref ∧ inode.valid = true
  once : busy.Nodup

variable {outer sys : Sys} {fresh : Option Nat} {nodes : Nat → Node}
  {held taken : List (CacheSlot × Nat)} {locks busy : List CacheSlot} {s : CacheSlot} {i : Nat}
  {inode : Inode}

theorem count_held (t : CacheSlot) (different : t ≠ s) :
    (held.map Prod.fst).count t = (((s, i) :: held).map Prod.fst).count t := by
  rw [List.map_cons, List.count_cons_of_ne different.symm]

theorem mem_held {t : CacheSlot} {j : Nat} (different : t ≠ s) (member : (t, j) ∈ (s, i) :: held) :
    (t, j) ∈ held := by
  rcases List.mem_cons.mp member with here | before
  · exact absurd (Prod.mk.inj here).1 different
  · exact before

section
variable (frame : Frame outer fresh nodes held locks sys)
include frame

theorem Frame.held_ref (member : (s, i) ∈ held) : 0 < (sys.icache s).ref := by
  have counted : 0 < (held.map Prod.fst).count s :=
    List.count_pos_iff.mpr (List.mem_map_of_mem member)
  rw [frame.refs s]
  omega

theorem Frame.perm {held' : List (CacheSlot × Nat)} {locks' : List CacheSlot}
    (heldPerm : held.Perm held')
    (locksPerm : locks.Perm locks') : Frame outer fresh nodes held' locks' sys :=
  { frame with
    refs := fun s => by rw [frame.refs s, (heldPerm.map Prod.fst).count_eq s]
    inums := fun s i member => frame.inums s i (heldPerm.mem_iff.mpr member)
    busy := fun s positive => by rw [frame.busy s positive, locksPerm.mem_iff]
    locked := fun s member => frame.locked s (locksPerm.mem_iff.mpr member)
    once := locksPerm.nodup_iff.mp frame.once }

theorem Frame.same_refs (inUse : 0 < (sys.icache s).ref) (ref : inode.ref = (sys.icache s).ref)
    (inum : inode.inum = (sys.icache s).inum) (isBusy : inode.busy = true ↔ s ∈ busy)
    (otherBusy : ∀ t, t ≠ s → (t ∈ busy ↔ t ∈ locks)) (valid : s ∈ busy → inode.valid = true)
    (once : busy.Nodup) : Fits outer sys held locks s inode held busy where
  refs := by rw [ref, frame.refs s]
  otherRefs := fun _ _ => rfl
  home := fun positive => by rw [inum, frame.homes s positive]
  inums := fun j member => by rw [inum, frame.inums s j member]
  otherInums := fun _ _ _ member => member
  unique := by
    intro _ t different positive same
    exact different (frame.unique t s positive inUse (same.trans inum))
  isBusy := fun _ => isBusy
  otherBusy := otherBusy
  locked := fun member => ⟨by omega, valid member⟩
  once := once

theorem Frame.change {fresh' : Option Nat} {nodes' : Nat → Node}
    (fits : Fits outer sys held locks s inode taken busy)
    (sameNodes : ∀ t, t ≠ s → 0 < (sys.icache t).ref →
      nodes' (sys.icache t).inum = nodes (sys.icache t).inum)
    (copy : 0 < inode.ref → inode.valid = true →
      inode.din = nodes' inode.inum ∧ (nodes' inode.inum).type ≠ 0)
    (kept : ∀ j, fresh' ≠ some j → (nodes' j).type ≠ 0 → (nodes' j).nlink = 0 →
      (0 < inode.ref ∧ inode.inum = j ∧ inode.valid = true) ∨
        ∃ t, t ≠ s ∧ 0 < (sys.icache t).ref ∧ (sys.icache t).inum = j ∧
          (sys.icache t).valid = true) : Frame outer fresh' nodes' taken busy
      { sys with nodes := nodes', icache := update sys.icache s inode } := by
  have self : update sys.icache s inode s = inode := update_self ..
  have others : ∀ t, t ≠ s → update sys.icache s inode t = sys.icache t :=
    fun t different => update_of_ne different ..
  constructor
  case ftable => exact frame.ftable
  case procs => exact frame.procs
  case initproc => exact frame.initproc
  case disk => rfl
  case refs =>
    intro t
    dsimp only
    by_cases here : t = s
    · rw [here, self, fits.refs]
    · rw [others t here, frame.refs t, fits.otherRefs t here]
  case homes =>
    intro t
    dsimp only
    by_cases here : t = s
    · rw [here, self]
      exact fits.home
    · rw [others t here]
      exact frame.homes t
  case inums =>
    intro t j member
    dsimp only
    by_cases here : t = s
    · rw [here, self]
      rw [here] at member
      exact fits.inums j member
    · rw [others t here]
      exact frame.inums t j (fits.otherInums t j here member)
  case unique =>
    intro t u
    dsimp only
    by_cases first : t = s
    · by_cases second : u = s
      · rw [first, second]
        exact fun _ _ _ => rfl
      · rw [first, self, others u second]
        exact fun stays positive same => absurd same.symm (fits.unique stays u second positive)
    · by_cases second : u = s
      · rw [second, self, others t first]
        exact fun positive stays same => absurd same (fits.unique stays t first positive)
      · rw [others t first, others u second]
        exact frame.unique t u
  case busy =>
    intro t
    dsimp only
    by_cases here : t = s
    · rw [here, self]
      exact fits.isBusy
    · rw [others t here, fits.otherBusy t here]
      exact frame.busy t
  case locked =>
    intro t
    dsimp only
    by_cases here : t = s
    · rw [here, self]
      exact fits.locked
    · rw [others t here, fits.otherBusy t here]
      exact frame.locked t
  case once => exact fits.once
  case copies =>
    intro t
    dsimp only
    by_cases here : t = s
    · rw [here, self]
      exact copy
    · rw [others t here]
      intro positive
      rw [sameNodes t here positive]
      exact frame.copies t positive
  case kept =>
    intro j notFresh typed unlinked
    dsimp only
    rcases kept j notFresh typed unlinked with here | ⟨t, different, there⟩
    · exact ⟨s, by rw [self]; exact here⟩
    · exact ⟨t, by rw [others t different]; exact there⟩

theorem Frame.setInode (fits : Fits outer sys held locks s inode taken busy)
    (copy : 0 < inode.ref → inode.valid = true →
    inode.din = nodes inode.inum ∧ (nodes inode.inum).type ≠ 0)
    (kept : 0 < (sys.icache s).ref → (sys.icache s).valid = true →
    (nodes (sys.icache s).inum).nlink = 0 →
    0 < inode.ref ∧ inode.inum = (sys.icache s).inum ∧ inode.valid = true) :
    Frame outer fresh nodes taken busy (sys.setInode s inode) := by
  have same : sys.setInode s inode =
      { sys with nodes := nodes, icache := update sys.icache s inode } := by
    rw [← frame.disk]
    rfl
  rw [same]
  apply frame.change fits (fun _ _ _ => rfl) copy
  intro j notFresh typed unlinked
  obtain ⟨t, positive, number, valid⟩ := frame.kept j notFresh typed unlinked
  by_cases here : t = s
  · subst here
    rw [← number] at unlinked
    obtain ⟨stays, same, still⟩ := kept positive valid unlinked
    exact .inl ⟨stays, same.trans number, still⟩
  · exact .inr ⟨t, here, positive, number, valid⟩

theorem Frame.addRef (inUse : 0 < (sys.icache s).ref) :
    Frame outer fresh nodes ((s, (sys.icache s).inum) :: held) locks
      (sys.setInode s { sys.icache s with ref := (sys.icache s).ref + 1 }) := by
  apply frame.setInode
  case fits =>
    constructor
    case refs =>
      rw [List.map_cons, List.count_cons_self, frame.refs s]
      rfl
    case otherRefs => exact fun t different => (count_held t different).symm
    case home => exact frame.homes s
    case inums =>
      intro j member
      rcases List.mem_cons.mp member with here | before
      · exact (Prod.mk.inj here).2.symm
      · exact frame.inums s j before
    case otherInums => exact fun t j => mem_held
    case unique =>
      intro _ t different positive same
      exact different (frame.unique t s positive inUse same)
    case isBusy => exact fun _ => frame.busy s inUse
    case otherBusy => exact fun _ _ => .rfl
    case locked => exact fun member => ⟨Nat.succ_pos _, (frame.locked s member).2⟩
    case once => exact frame.once
  case copy => exact fun _ => frame.copies s inUse
  case kept => exact fun _ valid _ => ⟨Nat.succ_pos _, rfl, valid⟩

end

variable {choice : Nat} {p : Pid}

section
variable (frame : Frame outer fresh nodes held locks sys)
include frame

theorem iget_spec (i : Nat) : Yields ((iget i).run (handle choice p) sys)
    (fun result => Frame outer fresh nodes ((result.1, i) :: held) locks result.2)
    (fun reason => reason = .noCacheEntries ∧ ∀ t, 0 < (sys.icache t).ref) := by
  rw [iget, run_perform, handle]
  cases hit : (List.finRange KernelFs.ninode).find? fun ip =>
      decide (0 < (sys.icache ip).ref ∧ (sys.icache ip).inum = i) with
  | some s =>
    obtain ⟨inUse, number⟩ : 0 < (sys.icache s).ref ∧ (sys.icache s).inum = i := by
      simpa using List.find?_some hit
    rw [← number]
    exact frame.addRef inUse
  | none =>
    have absent : ∀ t, 0 < (sys.icache t).ref → (sys.icache t).inum ≠ i := by
      intro t positive same
      have missed := List.find?_eq_none.mp hit t (List.mem_finRange t)
      exact missed (decide_eq_true ⟨positive, same⟩)
    dsimp only
    cases room : (List.finRange KernelFs.ninode).find? fun ip =>
        decide ((sys.icache ip).ref = 0) with
    | none =>
      refine ⟨rfl, fun t => Nat.pos_of_ne_zero fun unused => ?_⟩
      exact List.find?_eq_none.mp room t (List.mem_finRange t) (decide_eq_true unused)
    | some s =>
      have unused : (sys.icache s).ref = 0 := by simpa using List.find?_some room
      have counts := frame.refs s
      have notHeld : ∀ j, (s, j) ∉ held := by
        intro j member
        have := frame.held_ref member
        omega
      have notLocked : s ∉ locks := by
        intro member
        have := (frame.locked s member).1
        omega
      apply frame.setInode
      case fits =>
        constructor
        case refs =>
          rw [List.map_cons, List.count_cons_self]
          dsimp only
          omega
        case otherRefs => exact fun t different => (count_held t different).symm
        case home => exact fun positive => by omega
        case inums =>
          intro j member
          rcases List.mem_cons.mp member with here | before
          · exact (Prod.mk.inj here).2.symm
          · exact absurd before (notHeld j)
        case otherInums => exact fun t j => mem_held
        case unique => exact fun _ t _ positive => absent t positive
        case isBusy => exact fun _ => iff_of_false Bool.false_ne_true notLocked
        case otherBusy => exact fun _ _ => .rfl
        case locked => exact fun member => absurd member notLocked
        case once => exact frame.once
      case copy => exact fun _ valid => absurd valid Bool.false_ne_true
      case kept => exact fun positive => by omega

theorem idupCwd_spec (cwd : (outer.procs p).cwd = some s) (inUse : 0 < (outer.icache s).ref) :
    Yields ((perform Op.idupCwd : Prog CacheSlot).run (handle choice p) sys)
    (fun result => result.1 = s ∧
    Frame outer fresh nodes ((s, (outer.icache s).inum) :: held) locks result.2)
    (fun _ => False) := by
  have cwd : (sys.procs p).cwd = some s := by rw [frame.procs, cwd]
  have positive : 0 < (sys.icache s).ref := by
    rw [frame.refs s]
    omega
  rw [run_perform, handle, cwd, ← frame.homes s inUse]
  exact ⟨rfl, frame.addRef positive⟩

theorem ilock_spec (member : (s, i) ∈ held) : Yields ((ilock s).run (handle choice p) sys)
    (fun result => (nodes i).type ≠ 0 ∧ s ∉ locks ∧
    Frame outer fresh nodes held (s :: locks) result.2)
    (fun reason => reason = .noType ∧ (nodes i).type = 0 ∨ reason = .asleep ∧ s ∈ locks) := by
  have inUse := frame.held_ref member
  have number := frame.inums s i member
  -- both ways of locking change the flags and the copy only
  have setFlags : ∀ inode : Inode, inode.ref = (sys.icache s).ref → inode.inum = i →
      inode.busy = true → inode.valid = true → inode.din = nodes i → (nodes i).type ≠ 0 →
      s ∉ locks → Frame outer fresh nodes held (s :: locks) (sys.setInode s inode) := by
    intro inode ref same busy valid copy typed free
    refine frame.setInode (frame.same_refs inUse ref (same.trans number.symm)
      (iff_of_true busy (.head _)) (fun t different => by simp [different])
      (fun _ => valid) (List.nodup_cons.mpr ⟨free, frame.once⟩)) ?copy ?kept
    case copy => exact fun _ _ => by rw [same]; exact ⟨copy, typed⟩
    case kept => exact fun _ _ _ => ⟨by omega, by rw [same, number], valid⟩
  rw [ilock, run_perform, handle]
  dsimp only
  rw [if_neg (by omega)]
  by_cases busy : (sys.icache s).busy = true
  · rw [if_pos busy]
    exact .inr ⟨rfl, (frame.busy s inUse).mp busy⟩
  · rw [if_neg busy]
    have free : s ∉ locks := fun held => busy ((frame.busy s inUse).mpr held)
    by_cases valid : (sys.icache s).valid = true
    · obtain ⟨copy, typed⟩ := frame.copies s inUse valid
      rw [number] at copy typed
      rw [if_pos valid]
      exact ⟨typed, free, setFlags _ rfl number rfl valid copy typed free⟩
    · rw [if_neg valid, frame.disk, number]
      by_cases untyped : (nodes i).type = 0
      · rw [if_pos untyped]
        exact .inl ⟨rfl, untyped⟩
      · rw [if_neg untyped]
        exact ⟨untyped, free, setFlags _ rfl rfl rfl rfl rfl untyped free⟩

end

theorem iunlock_spec (frame : Frame outer fresh nodes held (s :: locks) sys) :
    Yields ((iunlock s).run (handle choice p) sys)
    (fun result => Frame outer fresh nodes held locks result.2) (fun _ => False) := by
  obtain ⟨inUse, valid⟩ := frame.locked s (.head _)
  obtain ⟨unlocked, once⟩ := List.nodup_cons.mp frame.once
  have busy := (frame.busy s inUse).mpr (.head _)
  have fine : ¬ ((sys.icache s).busy = false ∨ (sys.icache s).ref < 1) := by
    rw [busy]
    simp only [Bool.true_eq_false, false_or]
    omega
  rw [iunlock, run_perform, handle, if_neg fine]
  refine frame.setInode (frame.same_refs inUse rfl rfl (iff_of_false Bool.false_ne_true unlocked)
    (fun t different => by simp [different]) (fun locked => absurd locked unlocked) once) ?copy ?kept
  case copy => exact frame.copies s
  case kept => exact fun _ valid _ => ⟨inUse, rfl, valid⟩

theorem readInode_spec (frame : Frame outer fresh nodes held locks sys) (member : (s, i) ∈ held)
    (locked : s ∈ locks) : (readInode s).run (handle choice p) sys = .ok (nodes i, sys) := by
  obtain ⟨inUse, valid⟩ := frame.locked s locked
  have copy := (frame.copies s inUse valid).1
  rw [readInode, run_perform, handle, copy, frame.inums s i member]

theorem inum_spec (frame : Frame outer fresh nodes held locks sys) (member : (s, i) ∈ held) :
    (inum s).run (handle choice p) sys = .ok (i, sys) := by
  rw [inum, run_perform, handle, frame.inums s i member]

theorem Frame.settle (frame : Frame outer (some i) nodes held locks sys) (member : (s, i) ∈ held)
    (locked : s ∈ locks) : Frame outer none nodes held locks sys :=
  { frame with
    kept := by
      intro j _ typed unlinked
      by_cases here : j = i
      · obtain ⟨inUse, valid⟩ := frame.locked s locked
        exact ⟨s, inUse, (frame.inums s i member).trans here.symm, valid⟩
      · exact frame.kept j (fun same => here (Option.some.inj same).symm) typed unlinked }

theorem writeInode_spec (frame : Frame outer fresh nodes held locks sys) (member : (s, i) ∈ held)
    (locked : s ∈ locks) (node : Node) (typed : node.type ≠ 0) :
    Yields ((writeInode s node).run (handle choice p) sys)
    (fun result => Frame outer fresh (update nodes i node) held locks result.2)
    (fun _ => False) := by
  obtain ⟨inUse, valid⟩ := frame.locked s locked
  obtain rfl := frame.inums s i member
  have elsewhere : ∀ j, j ≠ (sys.icache s).inum →
      update nodes (sys.icache s).inum node j = nodes j :=
    fun j different => update_of_ne different ..
  rw [writeInode, run_perform, handle, Sys.setNode, Sys.setInode, frame.disk]
  refine frame.change (frame.same_refs inUse rfl rfl (frame.busy s inUse) (fun _ _ => .rfl)
    (fun _ => valid) frame.once) ?sameNodes ?copy ?kept
  case sameNodes =>
    intro t different positive
    apply elsewhere
    intro same
    exact different (frame.unique t s positive inUse same)
  case copy =>
    intro _ _
    rw [update_self]
    exact ⟨rfl, typed⟩
  case kept =>
    intro j notFresh isTyped unlinked
    by_cases same : j = (sys.icache s).inum
    · exact .inl ⟨inUse, same.symm, valid⟩
    · rw [elsewhere j same] at isTyped unlinked
      obtain ⟨t, positive, number, isValid⟩ := frame.kept j notFresh isTyped unlinked
      refine .inr ⟨t, ?_, positive, number, isValid⟩
      rintro rfl
      exact same number.symm

def Node.freed (node : Node) : Node := { node with type := 0, entries := [], bytes := [] }

def Last (outer : Sys) (held : List (CacheSlot × Nat)) (s : CacheSlot) : Prop :=
  (outer.icache s).ref = 0 ∧ ∀ i, (s, i) ∉ held

/-- What `iput` of a reference to inode `i` does to the disk. An inode without links is
freed with its last reference. -/
def Put (outer : Sys) (held : List (CacheSlot × Nat)) (s : CacheSlot) (i : Nat)
    (nodes after : Nat → Node) : Prop :=
  after = nodes ∧ ¬ (Last outer held s ∧ (nodes i).type ≠ 0 ∧ (nodes i).nlink = 0) ∨
    after = update nodes i (nodes i).freed ∧
      Last outer held s ∧ (nodes i).type ≠ 0 ∧ (nodes i).nlink = 0

section
variable (frame : Frame outer fresh nodes ((s, i) :: held) locks sys)
include frame

theorem Frame.last_iff : Last outer held s ↔ (sys.icache s).ref = 1 := by
  have counts := frame.refs s
  rw [List.map_cons, List.count_cons_self] at counts
  constructor
  · rintro ⟨nothing, absent⟩
    have none : (held.map Prod.fst).count s = 0 := by
      apply List.count_eq_zero_of_not_mem
      intro member
      obtain ⟨⟨t, j⟩, inHeld, same⟩ := List.mem_map.mp member
      exact absent j (same ▸ inHeld)
    omega
  · intro single
    refine ⟨by omega, fun j member => ?_⟩
    have some : 0 < (held.map Prod.fst).count s :=
      List.count_pos_iff.mpr (List.mem_map_of_mem member)
    omega

theorem Frame.frees_iff (old : fresh ≠ some i) :
    ((sys.icache s).ref = 1 ∧ (sys.icache s).valid = true ∧ (sys.icache s).din.nlink = 0) ↔
    Last outer held s ∧ (nodes i).type ≠ 0 ∧ (nodes i).nlink = 0 := by
  have inUse := frame.held_ref (.head _)
  have number := frame.inums s i (.head _)
  rw [frame.last_iff]
  constructor
  · rintro ⟨single, valid, unlinked⟩
    obtain ⟨copy, typed⟩ := frame.copies s inUse valid
    rw [copy, number] at unlinked
    rw [number] at typed
    exact ⟨single, typed, unlinked⟩
  · rintro ⟨single, typed, unlinked⟩
    obtain ⟨t, positive, same, valid⟩ := frame.kept i old typed unlinked
    obtain rfl := frame.unique t s positive inUse (same.trans number.symm)
    have copy := (frame.copies t inUse valid).1
    rw [number] at copy
    exact ⟨single, valid, by rw [copy, unlinked]⟩

theorem Frame.drop (safe : s ∈ locks → ∃ j, (s, j) ∈ held)
    (stays : ¬ ((sys.icache s).ref = 1 ∧ (sys.icache s).valid = true ∧
      (sys.icache s).din.nlink = 0)) : Frame outer fresh nodes held locks
      (sys.setInode s { sys.icache s with ref := (sys.icache s).ref - 1 }) := by
  have inUse := frame.held_ref (.head _)
  have counts := frame.refs s
  rw [List.map_cons, List.count_cons_self] at counts
  apply frame.setInode
  case fits =>
    constructor
    case refs =>
      dsimp only
      omega
    case otherRefs => exact count_held
    case home => exact frame.homes s
    case inums => exact fun j member => frame.inums s j (.tail _ member)
    case otherInums => exact fun _ _ _ member => .tail _ member
    case unique =>
      intro _ t different positive same
      exact different (frame.unique t s positive inUse same)
    case isBusy => exact fun _ => frame.busy s inUse
    case otherBusy => exact fun _ _ => .rfl
    case locked =>
      intro member
      obtain ⟨j, another⟩ := safe member
      have some : 0 < (held.map Prod.fst).count s :=
        List.count_pos_iff.mpr (List.mem_map_of_mem another)
      refine ⟨?_, (frame.locked s member).2⟩
      dsimp only
      omega
    case once => exact frame.once
  case copy => exact fun _ => frame.copies s inUse
  case kept =>
    intro _ valid unlinked
    have several : (sys.icache s).ref ≠ 1 := by
      intro single
      rw [← (frame.copies s inUse valid).1] at unlinked
      exact stays ⟨single, valid, unlinked⟩
    refine ⟨?_, rfl, valid⟩
    dsimp only
    omega

theorem Frame.release (unlocked : s ∉ locks) (last : Last outer held s) {inode : Inode}
    (ref : inode.ref = 0) : Frame outer fresh (update nodes i (nodes i).freed) held locks
      { sys with
        nodes := update nodes i (nodes i).freed
        icache := update sys.icache s inode } := by
  have inUse := frame.held_ref (.head _)
  have number := frame.inums s i (.head _)
  have elsewhere : ∀ j, j ≠ i → update nodes i (nodes i).freed j = nodes j :=
    fun j different => update_of_ne different ..
  have gone : ¬ 0 < inode.ref := by omega
  apply frame.change
  case fits =>
    constructor
    case refs =>
      have counts := frame.refs s
      rw [List.map_cons, List.count_cons_self, frame.last_iff.mp last] at counts
      omega
    case otherRefs => exact count_held
    case home =>
      intro positive
      rw [last.1] at positive
      exact absurd positive (lt_irrefl 0)
    case inums => exact fun j member => absurd member (last.2 j)
    case otherInums => exact fun _ _ _ member => .tail _ member
    case unique => exact fun positive => absurd positive gone
    case isBusy => exact fun positive => absurd positive gone
    case otherBusy => exact fun _ _ => .rfl
    case locked => exact fun member => absurd member unlocked
    case once => exact frame.once
  case sameNodes =>
    intro t different positive
    apply elsewhere
    intro same
    exact different (frame.unique t s positive inUse (same.trans number.symm))
  case copy => exact fun positive => absurd positive gone
  case kept =>
    intro j notFresh typed unlinked
    have different : j ≠ i := by
      rintro rfl
      rw [update_self] at typed
      exact typed rfl
    rw [elsewhere j different] at typed unlinked
    obtain ⟨t, positive, same, valid⟩ := frame.kept j notFresh typed unlinked
    refine .inr ⟨t, ?_, positive, same, valid⟩
    rintro rfl
    exact different (same.symm.trans number)

end

theorem iput_last (idle : (sys.icache s).busy = false)
    (last : (sys.icache s).ref = 1 ∧ (sys.icache s).valid = true ∧ (sys.icache s).din.nlink = 0) :
    (iput s).run (handle choice p) sys = .ok ((), { sys with
        nodes := update sys.nodes (sys.icache s).inum (sys.icache s).din.freed
        icache := update sys.icache s
          { sys.icache s with
            busy := false, valid := false, ref := 0, din := (sys.icache s).din.freed } }) := by
  have open' : ¬ (sys.icache s).busy = true := by
    rw [idle]
    exact Bool.false_ne_true
  rw [iput, Program.run, handle]
  dsimp only
  rw [if_pos last, if_neg open', ok_bind]
  dsimp only
  rw [if_pos rfl, Program.run, handle, ok_bind]
  dsimp only
  rw [run_perform, handle]
  simp [Sys.setInode, Sys.setNode, Node.freed, last.1]

/-- A lock on the slot needs a reference that stays. -/
theorem iput_spec (frame : Frame outer fresh nodes ((s, i) :: held) locks sys)
    (old : fresh ≠ some i) (safe : s ∈ locks → ∃ j, (s, j) ∈ held) :
    Yields ((iput s).run (handle choice p) sys)
    (fun result => ∃ after, Put outer held s i nodes after ∧
    Frame outer fresh after held locks result.2) (fun _ => False) := by
  have inUse := frame.held_ref (.head _)
  have number := frame.inums s i (.head _)
  have frees := frame.frees_iff old
  by_cases last : (sys.icache s).ref = 1 ∧ (sys.icache s).valid = true ∧
      (sys.icache s).din.nlink = 0
  · have freeing := frees.mp last
    have unlocked : s ∉ locks := by
      intro member
      obtain ⟨j, another⟩ := safe member
      exact freeing.1.2 j another
    have idle : (sys.icache s).busy = false := by
      rw [← Bool.not_eq_true, frame.busy s inUse]
      exact unlocked
    have copy := (frame.copies s inUse last.2.1).1
    rw [number] at copy
    rw [iput_last idle last, number, copy, frame.disk]
    exact ⟨_, .inr ⟨rfl, freeing⟩, frame.release unlocked freeing.1 rfl⟩
  · rw [iput, Program.run, handle]
    dsimp only
    rw [if_neg last, ok_bind]
    exact ⟨nodes, .inl ⟨rfl, fun now => last (frees.mpr now)⟩, frame.drop safe last⟩

theorem iunlockput_spec (frame : Frame outer fresh nodes ((s, i) :: held) (s :: locks) sys)
    (old : fresh ≠ some i) : Yields ((iunlockput s).run (handle choice p) sys)
    (fun result => ∃ after, Put outer held s i nodes after ∧
    Frame outer fresh after held locks result.2) (fun _ => False) := by
  have unlocked := (List.nodup_cons.mp frame.once).1
  apply yields_run_then (iunlock_spec frame)
  intro _ after now
  exact iput_spec now old fun member => absurd member unlocked

/-- Every inode without links is in use, apart from the references taken since. -/
def Referenced (outer : Sys) (fresh : Option Nat) (held : List (CacheSlot × Nat))
    (nodes : Nat → Node) : Prop :=
  ∀ i, fresh ≠ some i → (nodes i).type ≠ 0 → (nodes i).nlink = 0 →
    ∃ s, 0 < (outer.icache s).ref ∧ (outer.icache s).inum = i ∨ (s, i) ∈ held

theorem Frame.referenced (frame : Frame outer fresh nodes held locks sys) :
    Referenced outer fresh held nodes := by
  intro i notFresh typed unlinked
  obtain ⟨s, positive, number, -⟩ := frame.kept i notFresh typed unlinked
  refine ⟨s, ?_⟩
  by_cases home : 0 < (outer.icache s).ref
  · exact .inl ⟨home, (frame.homes s home).symm.trans number⟩
  · have counts := frame.refs s
    have some : 0 < (held.map Prod.fst).count s := by omega
    obtain ⟨⟨t, j⟩, member, same⟩ := List.mem_map.mp (List.count_pos_iff.mp some)
    have same : t = s := same
    subst same
    have here := frame.inums t j member
    rw [number] at here
    rw [here]
    exact .inr member

section
variable (frame : Frame outer fresh nodes ((s, i) :: held) locks sys)
  (before : Referenced outer fresh held nodes) (old : fresh ≠ some i)
include frame before old

theorem Frame.put_unchanged {after : Nat → Node}
    (put : Put outer held s i nodes after) : after = nodes := by
  rcases put with ⟨same, -⟩ | ⟨-, last, typed, unlinked⟩
  · exact same
  · exfalso
    have inUse := frame.held_ref (.head _)
    have number := frame.inums s i (.head _)
    obtain ⟨t, ⟨home, there⟩ | member⟩ := before i old typed unlinked
    · have positive : 0 < (sys.icache t).ref := by
        rw [frame.refs t]
        omega
      have same := frame.unique t s positive inUse
        (((frame.homes t home).trans there).trans number.symm)
      rw [same, last.1] at home
      exact absurd home (lt_irrefl 0)
    · have later := List.mem_cons_of_mem (s, i) member
      have same := frame.unique t s (frame.held_ref later) inUse
        ((frame.inums t i later).trans number.symm)
      rw [same] at member
      exact last.2 i member

theorem iput_back
    (safe : s ∈ locks → ∃ j, (s, j) ∈ held) : Yields ((iput s).run (handle choice p) sys)
    (fun result => Frame outer fresh nodes held locks result.2) (fun _ => False) := by
  apply (iput_spec frame old safe).mono _ fun _ never => never
  rintro result ⟨after, put, now⟩
  rw [frame.put_unchanged before old put] at now
  exact now

end

theorem iunlockput_back (frame : Frame outer fresh nodes ((s, i) :: held) (s :: locks) sys)
    (before : Referenced outer fresh held nodes) (old : fresh ≠ some i) :
    Yields ((iunlockput s).run (handle choice p) sys)
    (fun result => Frame outer fresh nodes held locks result.2) (fun _ => False) := by
  have unlocked := (List.nodup_cons.mp frame.once).1
  apply yields_run_then (iunlock_spec frame)
  intro _ after now
  exact iput_back now before old fun member => absurd member unlocked

end Xv6Hacks.FileCalls
