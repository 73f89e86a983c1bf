import Xv6Hacks.BlockGroupLayout
import Xv6Hacks.CircularLists
import Xv6Hacks.GuardedRuns

/-!
# The buffer cache

`bio.c` with any number of processes: each stretch under `bcache.lock` is one step, and
so are the end of a transfer that `iderw` waits for and the marking of a buffer by
`bwrite` and `log_write`. A buffer is changed and given back by a process that has it
from `bread`. Of `log_write` only the pinning of the buffer is here; what it records for
the commit is in `RedoLog`.
-/

namespace Xv6Hacks.BufferCache

open CircularLists Function GuardedRuns
open BlockGroupLayout (maxopblocks)

abbrev nbuf : Nat := maxopblocks * 3

instance : NeZero nbuf := ⟨by decide⟩

abbrev BufNo := Fin nbuf

/-- A `struct buf *`: one of the cache, or `&bcache.head`. -/
abbrev Node := Option BufNo

structure Buf (D : Type) where
  busy : Bool
  valid : Bool
  dirty : Bool
  dev : BitVec 32
  blockno : BitVec 32
  data : D

inductive Stop where
  | noBuffers
  | bwrite
  | brelse
  | endless
  deriving DecidableEq, Repr

inductive Doing where
  | idle
  /-- In `bget`, asleep on the address of a buffer or about to look again. -/
  | looking (dev blockno : BitVec 32) (asleep : Option BufNo)
  /-- In `bread`, waiting for the disk. -/
  | reading (b : BufNo)
  /-- In `bwrite`, waiting for the disk. -/
  | writing (b : BufNo)
  deriving DecidableEq, Repr

variable {P D : Type}

structure State (P D : Type) where
  links : Links Node
  buf : BufNo → Buf D
  disk : BitVec 32 → BitVec 32 → D
  doing : P → Doing
  /-- The buffers that processes have from `bread` and have not given back. -/
  held : List (P × BufNo)
  stopped : Option Stop

inductive Action (P D : Type) where
  | bread (p : P) (dev blockno : BitVec 32)
  /-- A process woken in `bget` goes back to `loop`. -/
  | retry (p : P)
  /-- A wake-up of a process in `bget` that does not come from `brelse`. -/
  | wakeup (p : P)
  /-- The transfer a process waits for in `iderw` ends. -/
  | transferred (p : P)
  | modify (p : P) (b : BufNo) (data : D)
  | bwrite (p : P) (b : BufNo)
  | logWrite (p : P) (b : BufNo)
  | brelse (p : P) (b : BufNo)

def setBuf (s : State P D) (b : BufNo) (buf : Buf D) : State P D :=
  { s with buf := update s.buf b buf }

def onBuf (test : BufNo → Bool) : Node → Bool
  | none => false
  | some b => test b

def cached (s : State P D) (dev blockno : BitVec 32) (b : BufNo) : Bool :=
  (s.buf b).dev = dev ∧ (s.buf b).blockno = blockno

def recyclable (s : State P D) (b : BufNo) : Bool :=
  (s.buf b).busy = false ∧ (s.buf b).dirty = false

inductive Got where
  | hit (b : BufNo)
  | sleep (b : BufNo)
  | recycle (b : BufNo)
  | stop (why : Stop)
  deriving DecidableEq, Repr

def bget (s : State P D) (dev blockno : BitVec 32) : Got :=
  match search s.links.next Option.isNone (onBuf (cached s dev blockno)) (nbuf + 1)
      (s.links.next none) with
  | some (some (some b)) => if (s.buf b).busy then .sleep b else .hit b
  | some none =>
    match search s.links.prev Option.isNone (onBuf (recyclable s)) (nbuf + 1)
        (s.links.prev none) with
    | some (some (some b)) => .recycle b
    | some none => .stop .noBuffers
    | _ => .stop .endless
  | _ => .stop .endless

section Processes
variable [DecidableEq P]

def setDoing (s : State P D) (p : P) (doing : Doing) : State P D :=
  { s with doing := update s.doing p doing }

/-- `bread` when `bget` has returned `b`. -/
def gotBuf (s : State P D) (p : P) (b : BufNo) : State P D :=
  { setDoing s p (if (s.buf b).valid then .idle else .reading b) with held := (p, b) :: s.held }

def lookUp (s : State P D) (p : P) (dev blockno : BitVec 32) : State P D :=
  match bget s dev blockno with
  | .hit b => gotBuf (setBuf s b { s.buf b with busy := true }) p b
  | .recycle b =>
    gotBuf (setBuf s b { busy := true, valid := false, dirty := false, dev := dev,
                         blockno := blockno, data := (s.buf b).data }) p b
  | .sleep b => setDoing s p (.looking dev blockno (some b))
  | .stop why => { s with stopped := some why }

/-- What `iderw` has done when it returns. -/
def iderw (s : State P D) (b : BufNo) : State P D :=
  let buf := s.buf b
  if buf.dirty then
    { setBuf s b { buf with valid := true, dirty := false } with
      disk := update s.disk buf.dev
        (update (s.disk buf.dev) buf.blockno buf.data) }
  else setBuf s b { buf with data := s.disk buf.dev buf.blockno, valid := true }

/-- `wakeup(b)` for the processes in `bget`. -/
def wakeAll (s : State P D) (b : BufNo) : State P D :=
  { s with doing := fun p =>
      match s.doing p with
      | .looking dev blockno (some channel) =>
        if channel = b then .looking dev blockno none else .looking dev blockno (some channel)
      | other => other }

def release (s : State P D) (p : P) (b : BufNo) : State P D :=
  let moved := { s with links := (s.links.remove (some b)).insertFront none (some b) }
  let freed := setBuf moved b { s.buf b with busy := false }
  wakeAll { freed with held := s.held.erase (p, b) } b

/-- What a process does with a buffer, it does with one it holds and between calls. -/
def uses (s : State P D) (p : P) (b : BufNo) : Prop := s.doing p = .idle ∧ (p, b) ∈ s.held

instance (s : State P D) (p : P) (b : BufNo) : Decidable (uses s p b) :=
  inferInstanceAs (Decidable (_ ∧ _))

def step (s : State P D) (action : Action P D) : Option (State P D) :=
  if s.stopped.isSome then none
  else
    match action with
    | .bread p dev blockno =>
      if s.doing p = .idle then some (lookUp s p dev blockno) else none
    | .retry p =>
      match s.doing p with
      | .looking dev blockno none => some (lookUp s p dev blockno)
      | _ => none
    | .wakeup p =>
      match s.doing p with
      | .looking dev blockno (some _) => some (setDoing s p (.looking dev blockno none))
      | _ => none
    | .transferred p =>
      match s.doing p with
      | .reading b => some (setDoing (iderw s b) p .idle)
      | .writing b => some (setDoing (iderw s b) p .idle)
      | _ => none
    | .modify p b data =>
      if uses s p b then some (setBuf s b { s.buf b with data := data }) else none
    | .bwrite p b =>
      if uses s p b then
        if (s.buf b).busy = false then some { s with stopped := some .bwrite }
        else some (setDoing (setBuf s b { s.buf b with dirty := true }) p (.writing b))
      else none
    | .logWrite p b =>
      if uses s p b then some (setBuf s b { s.buf b with dirty := true }) else none
    | .brelse p b =>
      if uses s p b then
        if (s.buf b).busy = false then some { s with stopped := some .brelse }
        else some (release s p b)
      else none

end Processes

def binitLinks : Links Node :=
  (List.finRange nbuf).foldl (fun links b => links.insertFront none (some b))
    ⟨fun _ => none, fun _ => none⟩

def binit (disk : BitVec 32 → BitVec 32 → D) (data : D) : State P D where
  links := binitLinks
  buf _ := { busy := false, valid := false, dirty := false, dev := -1, blockno := 0, data := data }
  disk := disk
  doing _ := .idle
  held := []
  stopped := none

section Effects
variable [DecidableEq P]

inductive Effect (s : State P D) : Action P D → State P D → Prop where
  | looks (action : Action P D) (p : P) (dev blockno : BitVec 32) :
      Effect s action (lookUp s p dev blockno)
  | wakes (action : Action P D) (p : P) (doing : Doing) : Effect s action (setDoing s p doing)
  | transfers (action : Action P D) (p : P) (b : BufNo) :
      Effect s action (setDoing (iderw s b) p .idle)
  | modifies (p : P) (b : BufNo) (data : D) (holds : (p, b) ∈ s.held) :
      Effect s (.modify p b data) (setBuf s b { s.buf b with data := data })
  | marks (action : Action P D) (p : P) (b : BufNo) (doing : Doing) :
      Effect s action (setDoing (setBuf s b { s.buf b with dirty := true }) p doing)
  | releases (action : Action P D) (p : P) (b : BufNo) (holds : (p, b) ∈ s.held) :
      Effect s action (release s p b)
  | panics (action : Action P D) (p : P) (b : BufNo) (holds : (p, b) ∈ s.held)
      (free : (s.buf b).busy = false) (why : Stop) :
      Effect s action { s with stopped := some why }

theorem step_effect {s after : State P D} {action : Action P D}
    (stepped : step s action = some after) : s.stopped = none ∧ Effect s action after := by
  unfold step at stepped
  split at stepped
  next => cases stepped
  next notStopped =>
    refine ⟨by simpa using notStopped, ?_⟩
    cases action with
    | bread p dev blockno =>
      dsimp only at stepped
      split at stepped
      next =>
        cases stepped
        exact Effect.looks _ p dev blockno
      next => cases stepped
    | retry p =>
      dsimp only at stepped
      split at stepped
      next dev blockno _ =>
        cases stepped
        exact Effect.looks _ p dev blockno
      next => cases stepped
    | wakeup p =>
      dsimp only at stepped
      split at stepped
      next =>
        cases stepped
        exact Effect.wakes _ p _
      next => cases stepped
    | transferred p =>
      dsimp only at stepped
      split at stepped
      next b _ =>
        cases stepped
        exact Effect.transfers _ p b
      next b _ =>
        cases stepped
        exact Effect.transfers _ p b
      next => cases stepped
    | modify p b data =>
      dsimp only at stepped
      split at stepped
      next uses =>
        cases stepped
        exact Effect.modifies p b data uses.2
      next => cases stepped
    | bwrite p b =>
      dsimp only at stepped
      split at stepped
      next uses =>
        split at stepped
        next free =>
          cases stepped
          exact Effect.panics _ p b uses.2 free .bwrite
        next =>
          cases stepped
          exact Effect.marks _ p b _
      next => cases stepped
    | logWrite p b =>
      dsimp only at stepped
      split at stepped
      next =>
        cases stepped
        have marked := @Effect.marks P D _ s (.logWrite p b) p b (s.doing p)
        unfold setDoing at marked
        dsimp only [setBuf] at marked
        rw [update_eq_self] at marked
        exact marked
      next => cases stepped
    | brelse p b =>
      dsimp only at stepped
      split at stepped
      next uses =>
        split at stepped
        next free =>
          cases stepped
          exact Effect.panics _ p b uses.2 free .brelse
        next =>
          cases stepped
          exact Effect.releases _ p b uses.2
      next => cases stepped

end Effects

/-- `order` is the cache in the order of the links from the head. -/
structure Cache (s : State P D) (order : List BufNo) : Prop where
  ring : Ring s.links none (order.map some)
  all : ∀ b, b ∈ order
  unique : ∀ b c, (s.buf b).dev ≠ -1 → (s.buf b).dev = (s.buf c).dev →
    (s.buf b).blockno = (s.buf c).blockno → b = c
  heldOnce : (s.held.map Prod.snd).Nodup
  busy : ∀ b, (s.buf b).busy = true ↔ b ∈ s.held.map Prod.snd
  stopped : s.stopped = none ∨ s.stopped = some .noBuffers

section Searches
variable {s : State P D} {order : List BufNo} (cache : Cache s order)
include cache

theorem Cache.order_nodup : order.Nodup :=
  (List.nodup_map_iff (Option.some_injective BufNo)).mp (List.nodup_cons.mp cache.ring.nodup).2

theorem Cache.order_length : order.length < nbuf + 1 := by
  have bound := cache.order_nodup.length_le_card
  rw [Fintype.card_fin] at bound
  exact Nat.lt_succ_of_le bound

theorem search_next (test : BufNo → Bool) :
    search s.links.next Option.isNone (onBuf test) (nbuf + 1) (s.links.next none) =
    some ((order.find? test).map some) := by
  rw [search_forward cache.ring rfl _ (by rw [List.length_map]; exact cache.order_length)]
  · rw [List.find?_map]
    rfl
  · intro node member
    obtain ⟨b, -, rfl⟩ := List.mem_map.mp member
    rfl

theorem search_prev (test : BufNo → Bool) :
    search s.links.prev Option.isNone (onBuf test) (nbuf + 1) (s.links.prev none) =
    some ((order.reverse.find? test).map some) := by
  rw [search_backward cache.ring rfl _ (by rw [List.length_map]; exact cache.order_length)]
  · rw [← List.map_reverse, List.find?_map]
    rfl
  · intro node member
    obtain ⟨b, -, rfl⟩ := List.mem_map.mp member
    rfl

inductive Pass (s : State P D) (dev blockno : BitVec 32) : Got → Prop where
  | hit (b : BufNo) (free : (s.buf b).busy = false) : Pass s dev blockno (.hit b)
  | sleep (b : BufNo) : Pass s dev blockno (.sleep b)
  | recycle (b : BufNo) (free : (s.buf b).busy = false) (clean : (s.buf b).dirty = false)
      (absent : ∀ c, ¬ ((s.buf c).dev = dev ∧ (s.buf c).blockno = blockno)) :
      Pass s dev blockno (.recycle b)
  | full : Pass s dev blockno (.stop .noBuffers)

theorem bget_pass (dev blockno : BitVec 32) : Pass s dev blockno (bget s dev blockno) := by
  unfold bget
  rw [search_next cache, search_prev cache]
  cases found : order.find? (cached s dev blockno) with
  | some b =>
    simp only [Option.map_some]
    split
    next => exact Pass.sleep b
    next free => exact Pass.hit b (by simpa using free)
  | none =>
    have absent (c : BufNo) : ¬ ((s.buf c).dev = dev ∧ (s.buf c).blockno = blockno) := by
      have missed := List.find?_eq_none.mp found c (cache.all c)
      simpa [cached] using missed
    simp only [Option.map_none]
    cases spare : order.reverse.find? (recyclable s) with
    | none => exact Pass.full
    | some b =>
      have fits := List.find?_some spare
      simp only [recyclable, decide_eq_true_eq] at fits
      exact Pass.recycle b fits.1 fits.2 absent

end Searches

section Steps
variable {s after : State P D} {order : List BufNo}

theorem Cache.same (cache : Cache s order) (links : after.links = s.links)
    (dev : ∀ b, (after.buf b).dev = (s.buf b).dev)
    (blockno : ∀ b, (after.buf b).blockno = (s.buf b).blockno)
    (busy : ∀ b, (after.buf b).busy = (s.buf b).busy) (held : after.held = s.held)
    (stopped : after.stopped = none ∨ after.stopped = some .noBuffers) : Cache after order where
  ring := by
    rw [links]
    exact cache.ring
  all := cache.all
  unique := by
    intro b c
    rw [dev b, dev c, blockno b, blockno c]
    exact cache.unique b c
  heldOnce := by
    rw [held]
    exact cache.heldOnce
  busy := by
    intro b
    rw [busy b, held]
    exact cache.busy b
  stopped := stopped

theorem update_field {β : Type} (field : Buf D → β) {bufs : BufNo → Buf D} {b : BufNo} {buf : Buf D}
    (same : field buf = field (bufs b)) (c : BufNo) :
    field (update bufs b buf c) = field (bufs c) := by
  by_cases here : c = b
  · subst here
    rw [update_self]
    exact same
  · rw [update_of_ne here]

theorem Cache.set_buf (cache : Cache s order) (running : s.stopped = none) {b : BufNo} {buf : Buf D}
    (dev : buf.dev = (s.buf b).dev) (blockno : buf.blockno = (s.buf b).blockno)
    (busy : buf.busy = (s.buf b).busy) : Cache (setBuf s b buf) order :=
  cache.same rfl (update_field Buf.dev dev) (update_field Buf.blockno blockno)
    (update_field Buf.busy busy) rfl (.inl running)

theorem Cache.iderw (cache : Cache s order) (running : s.stopped = none) (b : BufNo) :
    Cache (iderw s b) order := by
  unfold BufferCache.iderw
  dsimp only
  split
  · have flags : Cache (setBuf s b { s.buf b with valid := true, dirty := false }) order :=
      cache.set_buf running rfl rfl rfl
    exact flags.same rfl (fun _ => rfl) (fun _ => rfl) (fun _ => rfl) rfl (.inl running)
  · exact cache.set_buf running rfl rfl rfl

theorem iderw_running (running : s.stopped = none) (b : BufNo) : (iderw s b).stopped = none := by
  unfold iderw
  dsimp only
  split <;> exact running

variable [DecidableEq P]

section
variable (cache : Cache s order) (running : s.stopped = none)
include cache running

theorem Cache.got {b : BufNo} {buf : Buf D}
    (free : (s.buf b).busy = false) (taken : buf.busy = true) (unique : ∀ c, c ≠ b → buf.dev ≠ -1 →
      ¬ ((s.buf c).dev = buf.dev ∧ (s.buf c).blockno = buf.blockno)) (p : P) :
    Cache (gotBuf (setBuf s b buf) p b) order where
  ring := cache.ring
  all := cache.all
  unique := by
    intro c d
    change (update s.buf b buf c).dev ≠ -1 → (update s.buf b buf c).dev =
      (update s.buf b buf d).dev → (update s.buf b buf c).blockno =
      (update s.buf b buf d).blockno → c = d
    intro device dev blockno
    by_cases atC : c = b <;> by_cases atD : d = b
    · rw [atC, atD]
    · rw [atC, update_self] at device
      rw [atC, update_self, update_of_ne atD] at dev blockno
      exact absurd ⟨dev.symm, blockno.symm⟩ (unique d atD device)
    · rw [atD, update_self, update_of_ne atC] at dev blockno
      rw [update_of_ne atC, dev] at device
      exact absurd ⟨dev, blockno⟩ (unique c atC device)
    · rw [update_of_ne atC] at device
      rw [update_of_ne atC, update_of_ne atD] at dev blockno
      exact cache.unique c d device dev blockno
  heldOnce := by
    change (b :: s.held.map Prod.snd).Nodup
    refine List.nodup_cons.mpr ⟨?_, cache.heldOnce⟩
    intro member
    have busy := (cache.busy b).mpr member
    rw [free] at busy
    cases busy
  busy := by
    intro c
    change (update s.buf b buf c).busy = true ↔ c ∈ b :: s.held.map Prod.snd
    rw [List.mem_cons]
    by_cases here : c = b
    · rw [here, update_self]
      exact ⟨fun _ => .inl rfl, fun _ => taken⟩
    · rw [update_of_ne here, cache.busy c]
      exact (or_iff_right here).symm
  stopped := .inl running

theorem Cache.look_up (p : P) (dev blockno : BitVec 32) : Cache (lookUp s p dev blockno) order := by
  have pass := bget_pass cache dev blockno
  unfold lookUp
  generalize bget s dev blockno = got at pass
  cases pass with
  | hit b free =>
    apply cache.got running free rfl
    intro c other device same
    exact other (cache.unique b c device same.1.symm same.2.symm).symm
  | sleep b => exact cache.same rfl (fun _ => rfl) (fun _ => rfl) (fun _ => rfl) rfl (.inl running)
  | recycle b free clean absent =>
    apply cache.got running free rfl
    intro c _ _
    exact absent c
  | full => exact cache.same rfl (fun _ => rfl) (fun _ => rfl) (fun _ => rfl) rfl (.inr rfl)

theorem Cache.release {p : P} {b : BufNo} (holds : (p, b) ∈ s.held) : Cache (release s p b)
    (b :: order.erase b) := by
  have rest : (s.held.map Prod.snd).Perm (b :: (s.held.erase (p, b)).map Prod.snd) :=
    (List.perm_cons_erase holds).map Prod.snd
  obtain ⟨notHeld, restOnce⟩ := List.nodup_cons.mp (rest.nodup_iff.mp cache.heldOnce)
  constructor
  case ring =>
    obtain ⟨left, right, -, shape, erased⟩ := List.exists_erase_eq (cache.all b)
    have ring := cache.ring
    rw [shape, List.map_append, List.map_cons] at ring
    have removed := remove_ring ring
    rw [← List.map_append, ← erased] at removed
    apply insert_front_ring removed
    intro member
    rcases List.mem_cons.mp member with wrong | later
    · cases wrong
    · obtain ⟨c, inRest, same⟩ := List.mem_map.mp later
      cases same
      exact cache.order_nodup.not_mem_erase inRest
  case all =>
    intro c
    by_cases here : c = b
    · rw [here]
      exact .head _
    · exact .tail b ((List.mem_erase_of_ne here).mpr (cache.all c))
  case unique =>
    intro c d
    have bufs : (BufferCache.release s p b).buf =
        update s.buf b { s.buf b with busy := false } := rfl
    have dev := @update_field D _ Buf.dev s.buf b { s.buf b with busy := false } rfl
    have blockno := @update_field D _ Buf.blockno s.buf b { s.buf b with busy := false } rfl
    rw [bufs, dev c, dev d, blockno c, blockno d]
    exact cache.unique c d
  case heldOnce => exact restOnce
  case busy =>
    intro c
    change (update s.buf b _ c).busy = true ↔ c ∈ (s.held.erase (p, b)).map Prod.snd
    by_cases here : c = b
    · rw [here, update_self]
      exact ⟨fun wrong => (by cases wrong), fun member => absurd member notHeld⟩
    · rw [update_of_ne here, cache.busy c, rest.mem_iff, List.mem_cons]
      exact or_iff_right here
  case stopped => exact .inl running

end

theorem cache_step {action : Action P D} (cache : Cache s order)
    (stepped : step s action = some after) : ∃ order', Cache after order' := by
  obtain ⟨running, effect⟩ := step_effect stepped
  cases effect with
  | looks _ p dev blockno => exact ⟨order, cache.look_up running p dev blockno⟩
  | wakes _ p doing =>
    exact ⟨order, cache.same rfl (fun _ => rfl) (fun _ => rfl) (fun _ => rfl) rfl
      (.inl running)⟩
  | transfers _ p b =>
    exact ⟨order, (cache.iderw running b).same rfl (fun _ => rfl) (fun _ => rfl)
      (fun _ => rfl) rfl (.inl (iderw_running running b))⟩
  | modifies p b data holds => exact ⟨order, cache.set_buf running rfl rfl rfl⟩
  | marks _ p b doing =>
    have marked : Cache (setBuf s b { s.buf b with dirty := true }) order :=
      cache.set_buf running rfl rfl rfl
    exact ⟨order, marked.same rfl (fun _ => rfl) (fun _ => rfl) (fun _ => rfl) rfl
      (.inl running)⟩
  | releases _ p b holds => exact ⟨b :: order.erase b, cache.release running holds⟩
  | panics _ p b holds free why =>
    have busy := (cache.busy b).mpr (List.mem_map_of_mem (f := Prod.snd) holds)
    rw [free] at busy
    cases busy

end Steps

section Dirty
variable {s after : State P D} {b : BufNo}

/-- The buffer keeps its block and its data, until the data is on the disk. -/
structure Pinned (s after : State P D) (b : BufNo) : Prop where
  dev : (after.buf b).dev = (s.buf b).dev
  blockno : (after.buf b).blockno = (s.buf b).blockno
  data : (after.buf b).data = (s.buf b).data
  kept : (after.buf b).dirty = true ∨
    after.disk (s.buf b).dev (s.buf b).blockno = (s.buf b).data

theorem Pinned.of_same (dirty : (s.buf b).dirty = true) (same : after.buf b = s.buf b) :
    Pinned s after b := by
  constructor
  all_goals rw [same]
  exact .inl dirty

theorem Pinned.of_flags (dirty : (s.buf b).dirty = true) {c : BufNo} {buf : Buf D}
    (dev : buf.dev = (s.buf c).dev) (blockno : buf.blockno = (s.buf c).blockno)
    (data : buf.data = (s.buf c).data) (isDirty : (s.buf c).dirty = true → buf.dirty = true) :
    Pinned s (setBuf s c buf) b := by
  by_cases here : b = c
  · subst here
    have result : (setBuf s b buf).buf b = buf := update_self _ _ _
    constructor
    all_goals rw [result]
    · exact dev
    · exact blockno
    · exact data
    · exact .inl (isDirty dirty)
  · exact Pinned.of_same dirty (update_of_ne here _ _)

theorem Pinned.iderw (dirty : (s.buf b).dirty = true) (c : BufNo) : Pinned s (iderw s c) b := by
  by_cases here : b = c
  · subst here
    have result : (BufferCache.iderw s b).buf b =
        { s.buf b with valid := true, dirty := false } := by
      unfold BufferCache.iderw
      rw [if_pos dirty]
      exact update_self _ _ _
    have written : (BufferCache.iderw s b).disk (s.buf b).dev (s.buf b).blockno =
        (s.buf b).data := by
      unfold BufferCache.iderw
      rw [if_pos dirty]
      dsimp only
      rw [update_self, update_self]
    constructor
    · rw [result]
    · rw [result]
    · rw [result]
    · exact .inr written
  · apply Pinned.of_same dirty
    unfold BufferCache.iderw
    dsimp only
    split
    · exact update_of_ne here _ _
    · exact update_of_ne here _ _

variable [DecidableEq P] {order : List BufNo}

theorem pinned_look_up (cache : Cache s order) (dirty : (s.buf b).dirty = true) (p : P)
    (dev blockno : BitVec 32) : Pinned s (lookUp s p dev blockno) b := by
  have pass := bget_pass cache dev blockno
  unfold lookUp
  generalize bget s dev blockno = got at pass
  cases pass with
  | hit c free =>
    have marked : Pinned s (setBuf s c { s.buf c with busy := true }) b :=
      Pinned.of_flags dirty rfl rfl rfl id
    exact ⟨marked.dev, marked.blockno, marked.data, marked.kept⟩
  | sleep c => exact Pinned.of_same dirty rfl
  | recycle c free clean absent =>
    have other : b ≠ c := by
      intro same
      rw [same, clean] at dirty
      cases dirty
    exact Pinned.of_same dirty (update_of_ne other _ _)
  | full => exact Pinned.of_same dirty rfl

/-- Only a process that holds it changes the data of a dirty buffer. -/
theorem pinned_step {action : Action P D} (cache : Cache s order)
    (stepped : step s action = some after) (dirty : (s.buf b).dirty = true) :
    Pinned s after b ∨ ∃ p data, action = .modify p b data ∧ (p, b) ∈ s.held ∧
      after.buf b = { s.buf b with data := data } := by
  obtain ⟨-, effect⟩ := step_effect stepped
  cases effect with
  | looks _ p dev blockno => exact .inl (pinned_look_up cache dirty p dev blockno)
  | wakes _ p doing => exact .inl (Pinned.of_same dirty rfl)
  | transfers _ p c =>
    have transfer := Pinned.iderw dirty c
    exact .inl ⟨transfer.dev, transfer.blockno, transfer.data, transfer.kept⟩
  | modifies p c data holds =>
    by_cases here : b = c
    · subst here
      exact .inr ⟨p, data, rfl, holds, update_self _ _ _⟩
    · exact .inl (Pinned.of_same dirty (update_of_ne here _ _))
  | marks _ p c doing =>
    have marked : Pinned s (setBuf s c { s.buf c with dirty := true }) b :=
      Pinned.of_flags dirty rfl rfl rfl fun _ => rfl
    exact .inl ⟨marked.dev, marked.blockno, marked.data, marked.kept⟩
  | releases _ p c holds =>
    have freed : Pinned s (setBuf s c { s.buf c with busy := false }) b :=
      Pinned.of_flags dirty rfl rfl rfl id
    exact .inl ⟨freed.dev, freed.blockno, freed.data, freed.kept⟩
  | panics _ p c holds free why => exact .inl (Pinned.of_same dirty rfl)

end Dirty

theorem binit_loop (rest : List BufNo) {links : Links Node} {done : List BufNo}
    (ring : Ring links none (done.map some)) (nodup : (rest ++ done).Nodup) :
    Ring (rest.foldl (fun links b => links.insertFront none (some b)) links) none
    ((rest.reverse ++ done).map some) := by
  induction rest generalizing links done with
  | nil => exact ring
  | cons b rest ih =>
    obtain ⟨outside, tail⟩ := List.nodup_cons.mp nodup
    have inserted : Ring (links.insertFront none (some b)) none ((b :: done).map some) := by
      apply insert_front_ring ring
      intro member
      rcases List.mem_cons.mp member with wrong | isDone
      · cases wrong
      · obtain ⟨c, inDone, same⟩ := List.mem_map.mp isDone
        cases same
        exact outside (List.mem_append_right rest inDone)
    rw [List.foldl_cons, List.reverse_cons, List.append_assoc]
    exact ih inserted (List.nodup_middle.mpr nodup)

theorem cache_binit (disk : BitVec 32 → BitVec 32 → D) (data : D) :
    Cache (binit disk data : State P D) (List.finRange nbuf).reverse := by
  constructor
  case ring =>
    have empty : Ring (⟨fun _ => none, fun _ => none⟩ : Links Node) none (([] : List BufNo).map some) :=
      ⟨List.isChain_cons_cons.mpr ⟨⟨rfl, rfl⟩, List.isChain_singleton none⟩, List.nodup_singleton none⟩
    have built := binit_loop (List.finRange nbuf) empty
      (by rw [List.append_nil]; exact List.nodup_finRange nbuf)
    rw [List.append_nil] at built
    exact built
  case all =>
    intro b
    exact List.mem_reverse.mpr (List.mem_finRange b)
  case unique =>
    intro b c device
    exact absurd rfl device
  case heldOnce => exact List.nodup_nil
  case busy =>
    intro b
    exact ⟨fun wrong => (by cases wrong), fun wrong => absurd wrong List.not_mem_nil⟩
  case stopped => exact .inl rfl

structure Consistent [DecidableEq P] (s : State P D) : Prop where
  linked : ∃ order : List BufNo, order.Nodup ∧ (∀ b, b ∈ order) ∧ Ring s.links none (order.map some)
  unique : ∀ b c, (s.buf b).dev ≠ -1 → (s.buf b).dev = (s.buf c).dev →
    (s.buf b).blockno = (s.buf c).blockno → b = c
  holder : ∀ p q b, (p, b) ∈ s.held → (q, b) ∈ s.held → p = q
  pinned : ∀ action after, step s action = some after → ∀ b, (s.buf b).dirty = true →
    Pinned s after b ∨ ∃ p data, action = .modify p b data ∧ (p, b) ∈ s.held ∧
      after.buf b = { s.buf b with data := data }

theorem Cache.consistent [DecidableEq P] {s : State P D} {order : List BufNo}
    (cache : Cache s order) : Consistent s where
  linked := ⟨order, cache.order_nodup, cache.all, cache.ring⟩
  unique := cache.unique
  holder := by
    intro p q b first second
    have same := List.inj_on_of_nodup_map cache.heldOnce first second rfl
    exact congrArg Prod.fst same
  pinned := fun _ _ stepped _ dirty => pinned_step cache stepped dirty

theorem buffer_cache_consistent [DecidableEq P] (disk : BitVec 32 → BitVec 32 → D) (data : D)
    {s : State P D} (reached : Reaches step (fun _ _ => True) (binit disk data) s) :
    Consistent s := by
  have cached : ∃ order, Cache s order := by
    apply reaches_invariant (fun s => ∃ order, Cache s order) _ _ reached
    · exact ⟨_, cache_binit disk data⟩
    · intro before action after invariant _ stepped
      obtain ⟨order, cache⟩ := invariant
      exact cache_step cache stepped
  obtain ⟨order, cache⟩ := cached
  exact cache.consistent

/-- Two processes want the same block; the second one sleeps until the first one has
pinned the buffer and given it back. -/
def twoReaders : List (Action (Fin 2) Nat) :=
  [.bread 0 1 5, .transferred 0, .bread 1 1 5, .modify 0 0 7, .logWrite 0 0, .brelse 0 0, .retry 1]

theorem two_readers_consistent :
    ∃ s : State (Fin 2) Nat, run step (binit (fun _ _ => 3) 0) twoReaders = some s ∧
      (s.held = [(1, 0)] ∧ (s.buf 0).dirty = true ∧ (s.buf 0).data = 7) ∧ Consistent s := by
  obtain ⟨s, ran, summary⟩ := exists_of_run step (binit (fun _ _ => 3) 0) twoReaders
    (fun s => s.held = [(1, 0)] ∧ (s.buf 0).dirty = true ∧ (s.buf 0).data = 7) (by decide +kernel)
  simp only [decide_eq_true_eq] at summary
  refine ⟨s, ran, summary, buffer_cache_consistent (fun _ _ => 3) 0 ?_⟩
  exact reaches_of_run (all_guarded_trivial twoReaders _) ran

end Xv6Hacks.BufferCache
