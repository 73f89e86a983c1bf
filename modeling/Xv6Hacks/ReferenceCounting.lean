import Xv6Hacks.BootSequence

/-!
# Reference counts over whole runs

In every state the system gets to, the count of a page from `end` to `PHYSTOP` is the
number of page table entries that map it for the user, or one if the kernel uses it, and
the free list holds the pages with count zero. The one call that can break this is `exec`
with an executable that is loaded over a page table.
-/

namespace Xv6Hacks.ReferenceCounting

open Function
open AddressSpace BootSequence ByteBuffers Exec ExecConfinement ExecSafety GuardedRuns Kalloc
open Outcomes PageFault PageOwnership PageTables ProcessMemory ProcessOwnership ReferenceCounts
open SpaceChanges SpaceGrowth SpaceTeardown UserSpaces
open ProcTable (Slot)

def liveDirs (sys : Sys) : Finset Nat :=
  insert sys.kpgdir
    ((Finset.univ.filter fun slot => (sys.procs slot).life ≠ .unused).image
      fun slot => (sys.procs slot).pgdir)

/-- The present entries of user memory that map a page, over all live directories. -/
def userPtes (sys : Sys) (frame : Nat) : Nat :=
  refs (liveDirs sys ×ˢ Finset.range userPages)
    (fun place => pteTarget (entry sys.mem place.1 place.2)) frame

def KernelPage (sys : Sys) (frame : Nat) : Prop :=
  frame ∈ sys.cpuStacks ∨ (∃ slot, Used sys slot ∧ (sys.procs slot).kstack = frame) ∨
    frame ∈ liveDirs sys ∨ ∃ pgdir ∈ liveDirs sys, ∃ index, index < npdentries ∧
      pteTarget (readEntry sys.mem pgdir index) = some frame

structure CountsExact (b : Build) (sys : Sys) : Prop where
  kernel : ∀ frame, b.endFrame ≤ frame → frame < maxpages → KernelPage sys frame →
    sys.mem.refCount frame = 1
  user : ∀ frame, b.endFrame ≤ frame → frame < maxpages → ¬ KernelPage sys frame →
    sys.mem.refCount frame = userPtes sys frame
  free : ∀ frame, b.endFrame ≤ frame → frame < maxpages →
    (frame ∈ sys.mem.freelist ↔ sys.mem.refCount frame = 0)
  once : sys.mem.freelist.Nodup

section Exact
variable {b : Build} {κ : Nat → Kind} {sys : Sys}

section
variable (sound : Sound b κ sys)
include sound

theorem mem_live_dirs (pgdir : Nat) : pgdir ∈ liveDirs sys ↔ κ pgdir = .pgdir := by
  rw [sound.dirs.covers pgdir, liveDirs, Finset.mem_insert, Finset.mem_image]
  constructor
  · rintro (here | ⟨slot, member, rfl⟩)
    · exact .inl here
    · exact .inr ⟨slot, held_used Space.pgdir (Finset.mem_filter.mp member).2⟩
  · rintro (here | ⟨slot, holds⟩)
    · exact .inl here
    · right
      by_cases unused : (sys.procs slot).life = .unused
      · rw [held, if_pos unused] at holds
        cases holds
      · rw [held, if_neg unused] at holds
        exact ⟨slot, Finset.mem_filter.mpr ⟨Finset.mem_univ slot, unused⟩, Option.some.inj holds⟩

theorem user_ptes_mappings (frame : Nat) : userPtes sys frame = mappings κ sys.mem frame := by
  rw [userPtes, mappings, refs, refs]
  congr 1
  ext ⟨pgdir, n⟩
  rw [Finset.mem_filter, Finset.mem_filter, Finset.mem_product, Finset.mem_range, mem_places,
    mem_live_dirs sound, target]
  constructor
  · rintro ⟨⟨dir, page⟩, mapped⟩
    have bound : pgdir < maxpages := sound.owned.bound (by simp [dir])
    exact ⟨⟨bound, page⟩, by rw [if_pos dir]; exact mapped⟩
  · rintro ⟨⟨-, page⟩, mapped⟩
    by_cases dir : κ pgdir = .pgdir
    · rw [if_pos dir] at mapped
      exact ⟨⟨dir, page⟩, mapped⟩
    · rw [if_neg dir] at mapped
      cases mapped

theorem kernel_page_role {frame : Nat} (kernel : KernelPage sys frame) :
    (κ frame).kernelPage = true := by
  rcases kernel with stack | ⟨slot, used, rfl⟩ | dir | ⟨pgdir, live, index, below, target⟩
  · rw [(sound.kernel.covers frame).mpr (.inl stack)]
    rfl
  · rw [sound.stack used]
    rfl
  · rw [(mem_live_dirs sound frame).mp dir]
    rfl
  · rcases sound.owned.linked pgdir index ((mem_live_dirs sound pgdir).mp live) below with
      empty | ⟨table, label, links⟩
    · rw [empty] at target
      cases target
    · have bound : table < maxpages := sound.owned.bound (by simp [label])
      rw [links, pteTarget, if_pos (table_pte_present table), table_pte_frame bound] at target
      cases target
      rw [label]
      rfl

theorem kernel_page_of_role {frame : Nat}
    (kernel : (κ frame).kernelPage = true) : KernelPage sys frame := by
  cases role : κ frame with
  | kernel =>
    rcases (sound.kernel.covers frame).mp role with stack | ⟨slot, holds⟩
    · exact .inl stack
    · by_cases unused : (sys.procs slot).life = .unused
      · rw [held, if_pos unused] at holds
        cases holds
      · rw [held, if_neg unused] at holds
        exact .inr (.inl ⟨slot, unused, Option.some.inj holds⟩)
  | pgdir => exact .inr (.inr (.inl ((mem_live_dirs sound frame).mpr role)))
  | pgtab pgdir index =>
    obtain ⟨live, below, links⟩ := sound.owned.tables frame pgdir index role
    have bound : frame < maxpages := sound.owned.bound (by simp [role])
    refine .inr (.inr (.inr ⟨pgdir, (mem_live_dirs sound pgdir).mpr live, index, below, ?_⟩))
    rw [links, pteTarget, if_pos (table_pte_present frame), table_pte_frame bound]
  | outside =>
    rw [role] at kernel
    contradiction
  | free =>
    rw [role] at kernel
    contradiction
  | user =>
    rw [role] at kernel
    contradiction

theorem sound_counts_exact : CountsExact b sys := by
  constructor
  case kernel =>
    intro frame lower upper kernel
    rw [sound.owned.counted frame (sound.range frame lower upper),
      role_count_kernel _ (kernel_page_role sound kernel)]
  case user =>
    intro frame lower upper notKernel
    rw [user_ptes_mappings sound]
    cases role : κ frame with
    | outside => exact absurd role (sound.range frame lower upper)
    | free =>
      rw [sound.owned.counted frame (sound.range frame lower upper), role,
        sound.owned.unmapped (by simp [role])]
      rfl
    | user =>
      rw [sound.owned.user_count role]
      have unheld : share none frame = 0 := rfl
      rw [unheld, Nat.add_zero]
    | kernel => exact absurd (kernel_page_of_role sound (by rw [role]; rfl)) notKernel
    | pgdir => exact absurd (kernel_page_of_role sound (by rw [role]; rfl)) notKernel
    | pgtab pgdir index => exact absurd (kernel_page_of_role sound (by rw [role]; rfl)) notKernel
  case free =>
    intro frame lower upper
    rw [sound.owned.free frame]
    constructor
    · intro free
      rw [sound.owned.counted frame (sound.range frame lower upper), free]
      rfl
    · intro zero
      by_cases kernel : (κ frame).kernelPage = true
      · rw [sound.owned.counted frame (sound.range frame lower upper),
          role_count_kernel _ kernel] at zero
        contradiction
      · cases role : κ frame with
        | outside => exact absurd role (sound.range frame lower upper)
        | free => rfl
        | user =>
          have used := sound.owned.used frame role
          rw [sound.owned.user_count role] at zero
          omega
        | kernel => exact absurd (by rw [role]; rfl) kernel
        | pgdir => exact absurd (by rw [role]; rfl) kernel
        | pgtab pgdir index => exact absurd (by rw [role]; rfl) kernel
  case once => exact sound.owned.once

end
end Exact

def next (b : Build) (sys : Sys) (action : Action) : Option Sys := (step b sys action).toOption

theorem next_some {b : Build} {sys after : Sys} {action : Action} :
    next b sys action = some after ↔ step b sys action = .ok after := by
  rw [next]
  cases step b sys action with
  | ok result => simp [Except.toOption]
  | error stop => simp [Except.toOption]

section Runs
variable {b : Build} (counting : b.original = false) (strict : b.kallocNull = false)
variable {page : Nat → Buffer} {cpus : Nat} {init : List Byte} {start state : Sys}
include counting strict

theorem reached_sound (booted : main b page cpus init = .ok start)
    (reached : Reaches (next b) (Harmless b) start state) : ∃ κ, Sound b κ state := by
  apply reaches_invariant (fun sys => ∃ κ, Sound b κ sys) (main_sound counting strict booted) _
    reached
  rintro before action after ⟨κ, sound⟩ harmless taken
  exact (step_sound counting strict sound harmless).of_ok (next_some.mp taken)

/-- As long as nothing is executed that is loaded over pages of others, the counts are exact
in every state, and no page without references is freed. -/
theorem counts_exact_over_runs (booted : main b page cpus init = .ok start)
    (reached : Reaches (next b) (Harmless b) start state) : CountsExact b state ∧
      ∀ action, Harmless b state action → step b state action ≠ .error .refCountFreeing := by
  obtain ⟨κ, sound⟩ := reached_sound counting strict booted reached
  refine ⟨sound_counts_exact sound, fun action harmless stopped => ?_⟩
  exact (step_sound counting strict sound harmless).of_error stopped rfl

/-- Nothing that a process maps below `KERNBASE` is a free page, a kernel stack, a page
directory, a page table or a page outside of `end` to `PHYSTOP`. -/
theorem user_memory_protected (booted : main b page cpus init = .ok start)
    (reached : Reaches (next b) (Harmless b) start state) {slot : Slot} (used : Used state slot)
    {n frame : Nat} (below : n < userPages)
    (mapped : pteTarget (entry state.mem (state.procs slot).pgdir n) = some frame) :
    b.endFrame ≤ frame ∧ frame < maxpages ∧ frame ∉ state.mem.freelist ∧
      ¬ KernelPage state frame := by
  obtain ⟨κ, sound⟩ := reached_sound counting strict booted reached
  have user := sound.owned.target_user below ((if_pos (sound.dir used)).trans mapped)
  obtain ⟨lower, upper⟩ := sound.owned.inside frame (by simp [user])
  refine ⟨lower, upper, by simp [sound.owned.free, user], fun kernel => ?_⟩
  have role := kernel_page_role sound kernel
  rw [user] at role
  contradiction

/-- The panics and null pointers that are left to each call. -/
def MayStop : Action → Stop → Prop
  | .fork _, stop => stop = .nullRun ∨ stop = .pteShouldExist ∨ stop = .pageNotPresent
  | .store _ _ _, stop => stop = .nullRun ∨ stop = .notCow
  | .growproc _ _, stop => stop = .nullRun
  | .exec _ _ _, stop => stop = .nullRun ∨ stop = .nullPte
  | .exit slot, stop => slot = initproc ∧ stop = .initExiting
  | .wait _, _ => False

/-- In particular `wait` never panics over the stack or the directory of a zombie. -/
theorem stops_left (booted : main b page cpus init = .ok start)
    (reached : Reaches (next b) (Harmless b) start state) {action : Action} {stop : Stop}
    (alive : (state.procs action.slot).life = .alive) (harmless : Harmless b state action)
    (stopped : step b state action = .error stop) : MayStop action stop := by
  obtain ⟨κ, sound⟩ := reached_sound counting strict booted reached
  have used : Used state action.slot := by simp [Used, alive]
  rw [step, if_pos alive] at stopped
  cases action with
  | fork slot => exact (fork_sound sound used counting strict).of_error stopped
  | store slot va value =>
    exact (store_sound sound used counting strict value harmless.1 harmless.2).of_error stopped
  | growproc slot n => exact (growproc_sound sound used counting strict n).of_error stopped
  | exec slot file argv =>
    exact (exec_sound sound used counting strict argv harmless).of_error stopped
  | exit slot =>
    rw [call, ProcessMemory.exit] at stopped
    split at stopped
    · cases stopped
      exact ⟨‹_›, rfl⟩
    · cases stopped
  | wait slot => exact (wait_sound sound counting).of_error stopped

end Runs

theorem sample_boots : ∃ start frame, main sampleBuild (fun _ _ => 0) 0 [] = .ok start ∧
    (start.procs initproc).life = .alive ∧
    pteTarget (entry start.mem (start.procs initproc).pgdir 0) = some frame := by
  rcases main_returns (b := sampleBuild) rfl rfl (by decide) (fun _ _ => 0)
    (by decide : ([] : List Byte).length < pgsize) with
    ⟨start, booted, alive, -, -, frame, bound, first, -⟩
  exact ⟨start, frame, booted, alive, first ▸ pte_target_make bound (by decide)⟩

theorem first_page_protected : ∃ start frame, main sampleBuild (fun _ _ => 0) 0 [] = .ok start ∧
    pteTarget (entry start.mem (start.procs initproc).pgdir 0) = some frame ∧
    frame ∉ start.mem.freelist ∧ ¬ KernelPage start frame := by
  obtain ⟨start, frame, booted, alive, mapped⟩ := sample_boots
  exact ⟨start, frame, booted, mapped, (user_memory_protected rfl rfl booted .start
    (by simp [Used, alive]) (by decide) mapped).2.2⟩

theorem init_exit_stops : ∃ start, main sampleBuild (fun _ _ => 0) 0 [] = .ok start ∧
    MayStop (.exit initproc) .initExiting := by
  obtain ⟨start, -, booted, alive, -⟩ := sample_boots
  have stopped : step sampleBuild start (.exit initproc) = .error .initExiting :=
    (if_pos alive).trans rfl
  exact ⟨start, booted, stops_left rfl rfl booted .start alive trivial stopped⟩

theorem fork_returns {b : Build} {κ : Nat → Kind} {sys : Sys} {slot : Slot}
    (counting : b.original = false) (strict : b.kallocNull = false) (sound : Sound b κ sys)
    (alive : (sys.procs slot).life = .alive)
    (memory : 66 + pagesUp (sys.procs slot).sz ≤ sys.mem.freelist.length)
    (present : ∀ k, k < pagesUp (sys.procs slot).sz →
    has (entry sys.mem (sys.procs slot).pgdir k) pteP = true) :
    ∃ after, step b sys (.fork slot) = .ok after := by
  have used : Used sys slot := by simp [Used, alive]
  have dir := sound.dir used
  rcases (kalloc_spec counting strict sys.mem).returns (by
    rintro stop ⟨-, none⟩
    rw [none] at memory
    simp at memory) with ⟨result, allocated, kstack, rest, list, rfl⟩
  have owned1 : Owned b (update κ kstack .kernel) none (pop sys.mem kstack rest) :=
    sound.owned.take list (.inl ⟨rfl, rfl⟩)
  have dir1 : update κ kstack .kernel (sys.procs slot).pgdir = .pgdir := by
    rw [update_of_ne, dir]
    intro same
    rw [same, sound.owned.head_free list] at dir
    contradiction
  rcases (cowuvm_spec counting strict owned1 dir1 (sound.sized slot used).below).returns (by
    rintro stop (⟨-, short⟩ | ⟨-, k, inside, absent⟩)
    · rw [list, List.length_cons] at memory
      rw [pop_freelist] at short
      omega
    · rw [entry_page_congr (pop_page sys.mem kstack rest), present k inside] at absent
      contradiction) with ⟨⟨made, m⟩, shared, pgdir, -, same, -, -, -⟩
  simp only at same
  subst same
  have running : (sys.procs (Action.fork slot).slot).life = .alive := alive
  rw [step, if_pos running, call, fork]
  cases findUnused sys with
  | none => exact ⟨sys, rfl⟩
  | some child =>
    simp only [allocated, ok_bind, shared]
    exact ⟨_, rfl⟩

theorem first_fork_counts_exact : ∃ start state, main sampleBuild (fun _ _ => 0) 0 [] = .ok start ∧
      step sampleBuild start (.fork initproc) = .ok state ∧ CountsExact sampleBuild state := by
  rcases main_returns (b := sampleBuild) rfl rfl (by decide) (fun _ _ => 0)
    (by decide : ([] : List Byte).length < pgsize) with
    ⟨start, booted, alive, size, many, frame, -, first, -⟩
  obtain ⟨κ, sound⟩ := main_sound rfl rfl booted
  have one : pagesUp (start.procs initproc).sz = 1 := by
    rw [size]
    decide
  rcases fork_returns rfl rfl sound alive (by omega) (by
    intro k inside
    rw [show k = 0 by omega, first]
    exact make_pte_present) with ⟨state, forked⟩
  have reached : Reaches (next sampleBuild) (Harmless sampleBuild) start state :=
    Reaches.next (.fork initproc) Reaches.start trivial (next_some.mpr forked)
  exact ⟨start, state, booted, forked, (counts_exact_over_runs rfl rfl booted reached).1⟩

/-- An entry with the only reference to a page is overwritten. The page looks like one of
the kernel from then on. -/
theorem lose_entry {b : Build} {κ : Nat → Kind} {m : Mem} {table pgdir n frame : Nat}
    (owned : Owned b κ none m) (label : κ table = .pgtab pgdir (pdx n)) (page : n < userPages)
    (mapped : pteTarget (entry m pgdir n) = some frame) (single : m.refCount frame = 1) :
    Owned b (update κ frame .kernel) none (writeEntry m table (ptx n) 0) := by
  have dir : κ pgdir = .pgdir := (owned.tables table pgdir (pdx n) label).1
  have user : κ frame = .user := by
    apply owned.target_user page
    rw [target, if_pos dir]
    exact mapped
  have cut : Owned b κ (some frame) (writeEntry m table (ptx n) 0) := by
    apply owned.set_user_entry label page (.inl rfl)
    · rintro other ⟨⟩
      exact user
    · intro other
      rw [mapped, pte_target_zero]
      exact Nat.add_comm _ _
  have unmapped : mappings κ (writeEntry m table (ptx n) 0) frame = 0 := by
    have count := cut.user_count user
    have one : share (some frame) frame = 1 := by simp [share]
    rw [write_entry_ref_count, single, one] at count
    omega
  apply cut.relabel
  · rw [user]
    rfl
  · rfl
  · exact cut.inside frame (by simp [user])
  · exact fun _ _ => rfl
  · intro other
    rw [cut.free other]
    by_cases same : other = frame
    · simp [same, user]
    · rw [update_of_ne same]
  · exact cut.once
  · rintro other ⟨⟩
  · exact fun _ => unmapped
  · simp
  · exact single
  · intro other different
    refine ⟨rfl, ?_⟩
    simp [share, different.symm]

/-- A loadable segment of four zero bytes at the address `vaddr`, whose end wraps around to
one page. -/
def wrappingSegment (vaddr : Nat) : List Byte :=
  wordBytes 1 ++ wordBytes 4 ++ wordBytes vaddr ++ wordBytes 0 ++ wordBytes 4 ++
    wordBytes (2 ^ 32 + 0x1000 - vaddr) ++ wordBytes 0 ++ wordBytes 0

/-- The segment is loaded over the page `frame`, and the second program header is
missing. -/
def overwriting (frame : Nat) : List Byte :=
  elfFile 2 (wrappingSegment (kernbase + frame * pgsize))

theorem overwriting_header (frame : Nat) :
    readElfhdr (overwriting frame) = some ⟨elfMagic, 52, 2⟩ := by
  have whole : readi (overwriting frame) 0 sizeofElfhdr = some (elfFile 2 []) := by rfl
  rw [readElfhdr, whole]
  rfl

theorem overwriting_zeros (frame : Nat) :
    readi (overwriting frame) 4 4 = some [0, 0, 0, 0] := by rfl

theorem overwriting_end (frame : Nat) : readProghdr (overwriting frame) 84 = none := by rfl

theorem wrapping_segment_decode {vaddr : Nat} (high : kernbase ≤ vaddr) (low : vaddr < 2 ^ 32) :
    Proghdr.decode (wrappingSegment vaddr) =
    ⟨elfProgLoad, 4, vaddr, 4, 2 ^ 32 + 0x1000 - vaddr⟩ := by
  have word (off value : Nat) (small : value < 2 ^ 32) (bytes : ∀ index, index < 4 →
      bufferOf (wrappingSegment vaddr) (off + index) = byteOf value index) :
      readLE (bufferOf (wrappingSegment vaddr)) off 4 = value := by
    rw [read_le_of_bytes _ off 4 value bytes]
    exact Nat.mod_eq_of_lt small
  simp only [kernbase] at high
  rw [Proghdr.decode, word 0 1 (by decide), word 4 4 (by decide), word 8 vaddr low,
    word 16 4 (by decide), word 20 (2 ^ 32 + 0x1000 - vaddr) (by omega)]
  · rfl
  all_goals
    intro index bound
    interval_cases index <;> rfl

theorem overwriting_segment {frame : Nat} (inside : frame < maxpages) :
    readProghdr (overwriting frame) 52 = some ⟨elfProgLoad, 4, kernbase + frame * pgsize, 4,
    2 ^ 32 + 0x1000 - (kernbase + frame * pgsize)⟩ := by
  have read : readProghdr (overwriting frame) 52 =
      some (Proghdr.decode (wrappingSegment (kernbase + frame * pgsize))) := by
    rw [readProghdr]
    rfl
  rw [read, wrapping_segment_decode (Nat.le_add_right _ _)]
  rw [maxpages_value] at inside
  simp only [kernbase, pgsize]
  omega

theorem zeros_clear_entry (m : Mem) (table : Nat) :
    setPage m table (copyInto (m.page table) 0 [0, 0, 0, 0]) = writeEntry m table (ptx 0) 0 := by
  have start : 4 * ptx 0 = 0 := rfl
  rw [writeEntry, start]
  congr 1
  funext index
  by_cases inside : index < 4
  · interval_cases index <;> rfl
  · rw [write_le_outside _ _ _ _ _ (by omega), copyInto, if_neg]
    simp only [List.length_cons, List.length_nil]
    omega

section Loss
variable {κ κ' : Nat → Kind} {m : Mem} {old pgdir frame table : Nat} {image : Image}

theorem loading_single (owned : Owned sampleBuild κ none m) (dir : κ old = .pgdir)
    (loading : Loading sampleBuild κ m pgdir κ' image) (user : κ frame = .user)
    (mapped : pteTarget (entry m old 0) = some frame) (single : m.refCount frame = 1) :
    image.m.refCount frame = 1 := by
  have unheld : share none frame = 0 := rfl
  have touches := grows_touches loading.grows
  have apart : old ≠ pgdir := label_ne dir loading.fresh nofun
  have dir' := (touches.dirs old apart).mpr dir
  have once : mappings κ m frame ≤ 1 := by
    have count := owned.user_count user
    rw [single, unheld] at count
    omega
  have atOld : target κ m (old, 0) = some frame := by
    rw [target, if_pos dir]
    exact mapped
  have one : mappings κ' image.m frame = 1 := by
    apply refs_single (places_mem loading.owned dir' (by decide : 0 < userPages))
    · rw [target, if_pos dir', (loading.grows.others old apart dir).2 0]
      exact mapped
    · rintro ⟨d, n⟩ member here
      rw [mem_places] at member
      have live := (target_present here).1
      rw [target, if_pos live] at here
      by_cases this : d = pgdir
      · -- Pages of the new directory were free before.
        rw [this] at here
        by_cases inside : n < pagesUp image.sz
        · obtain ⟨new, wasFree, isUser, entry'⟩ := loading.pages n inside
          have bound : new < maxpages := loading.owned.bound (by simp [isUser])
          rw [entry', pte_target_make bound (by decide)] at here
          cases here
          rw [wasFree] at user
          contradiction
        · rw [loading.sized.absent n (by omega) member.2] at here
          cases here
      · have before := (touches.dirs d this).mp live
        rw [(loading.grows.others d this before).2 n] at here
        exact refs_unique once (places_mem owned before member.2)
          (places_mem owned dir (by decide)) (by rw [target, if_pos before]; exact here) atOld
  have count := loading.owned.user_count (by
    rw [loading.grows.kinds frame (by simp [user]), user] : κ' frame = .user)
  rw [one, unheld] at count
  exact count

/-- `exec` fails at the second header, and the page has lost its entry. -/
theorem exec_loses_page (owned : Owned sampleBuild κ none m) (label : κ table = .pgtab old 0)
    (user : κ frame = .user) (mapped : pteTarget (entry m old 0) = some frame)
    (single : m.refCount frame = 1) (many : 1000 < m.freelist.length) :
    ∃ m' κ' escapes, Exec.exec sampleBuild m old (overwriting table) [] =
        .ok { m := m', space := none, escapes := escapes } ∧
      Owned sampleBuild κ' none m' ∧ κ' frame = .kernel ∧
      ∀ d, κ d = .pgdir → κ' d = .pgdir := by
  have dir : κ old = .pgdir := (owned.tables table old 0 label).1
  have bounds := owned.inside table (by simp [label])
  obtain ⟨pgdir, first, κ2, image, made, grew, loading, kernelMapped⟩ := one_page_space owned many
  have touches := grows_touches loading.grows
  have notNew {d : Nat} (live : κ d = .pgdir) : d ≠ pgdir := by
    rintro rfl
    rw [loading.fresh] at live
    contradiction
  have label2 := loading.grows.label label nofun
  have foreign : table ∉ image.allocated := by
    intro member
    have wasFree := (loading.allocated_user member).1
    rw [label] at wasFree
    contradiction
  have store : storeBytes sampleBuild image table [0, 0, 0, 0] =
      .ok { image with m := writeEntry image.m table (ptx 0) 0, escapes := [table] } := by
    have quiet := loading.confined
    rw [storeBytes, if_neg (by simp), if_neg (by omega), zeros_clear_entry, if_neg foreign, quiet]
    rfl
  have loads : loaduvm sampleBuild (overwriting table) pgdir (kernbase + table * pgsize) 4 4 image =
      .ok (true, { image with m := writeEntry image.m table (ptx 0) 0, escapes := [table] }) := by
    -- The kernel's address of the page table leads `loaduvm` to it.
    have kernel := kernelMapped table (by have low := sampleBuild.dataNonempty; omega) bounds.2
    rw [loaduvm_kernel bounds.2 kernel (overwriting_zeros table) rfl, store]
    rfl
  -- What is left of the page is a count without an entry.
  have mapped2 : pteTarget (entry image.m old 0) = some frame := by
    rw [(loading.grows.others old (notNew dir) dir).2 0]
    exact mapped
  have lost := lose_entry loading.owned label2 (by decide : 0 < userPages) mapped2
    (loading_single owned dir loading user mapped single)
  have notFrame {d : Nat} (live : κ2 d = .pgdir) : d ≠ frame := by
    rintro rfl
    rw [loading.grows.kinds d (by simp [user]), user] at live
    contradiction
  have dir3 : update κ2 frame .kernel pgdir = .pgdir := by
    rw [update_of_ne (notFrame loading.dir), loading.dir]
  obtain ⟨κ3, m3, freed, owned3, gone⟩ := freevm_spec rfl lost dir3
  refine ⟨m3, κ3, [table], ?_, owned3, ?_, ?_⟩
  · have wraps : (kernbase + table * pgsize + (2 ^ 32 + 0x1000 - (kernbase + table * pgsize))) %
        2 ^ 32 = 0x1000 := by
      rw [maxpages_value] at bounds
      simp only [kernbase, pgsize]
      omega
    have fits : ¬ 2 ^ 32 + 0x1000 - (kernbase + table * pgsize) < 4 := by
      rw [maxpages_value] at bounds
      simp only [kernbase, pgsize]
      omega
    rw [Exec.exec, overwriting_header]
    simp only [made, ok_bind, loadHeaders, overwriting_segment bounds.2, ne_eq, not_true_eq_false,
      ↓reduceIte, loadSegment, fits, wraps, grew, loads]
    rw [show 52 + sizeofProghdr = 84 by decide, overwriting_end]
    simp only [ok_bind, Bool.false_eq_true, ↓reduceIte, bad, freed]
  · rcases gone.roles frame with same | ⟨-, isUser | rfl | ⟨index, isTable⟩⟩
    · rw [same, update_self]
    · rw [update_self] at isUser
      contradiction
    · exact absurd rfl (notFrame loading.dir)
    · rw [update_self] at isTable
      contradiction
  · intro d live
    have live2 := (touches.dirs d (notNew live)).mpr live
    apply ((freed_touches gone dir3).dirs d (notNew live)).mpr
    rw [update_of_ne (notFrame live2), live2]

end Loss

/-- The first process executes the file. The count of its page is one, and nothing refers to
the page. -/
theorem executed_page_lost : ∃ start state file, main sampleBuild (fun _ _ => 0) 0 [] = .ok start ∧
      step sampleBuild start (.exec initproc file []) = .ok state ∧
      ¬ CountsExact sampleBuild state := by
  rcases main_returns (b := sampleBuild) rfl rfl (by decide) (fun _ _ => 0)
    (by decide : ([] : List Byte).length < pgsize) with
    ⟨start, booted, alive, -, many, frame, bound, first, single⟩
  obtain ⟨κ, sound⟩ := main_sound rfl rfl booted
  have used : Used start initproc := by simp [Used, alive]
  have dir := sound.dir used
  have mapped : pteTarget (entry start.mem (start.procs initproc).pgdir 0) = some frame := by
    rw [first]
    exact pte_target_make bound (by decide)
  have user : κ frame = .user := by
    apply sound.owned.target_user (by decide : 0 < userPages)
    rw [target, if_pos dir]
    exact mapped
  rcases sound.owned.find_cases dir 0 with ⟨-, missing⟩ | ⟨table, label, -⟩
  · rw [entry_of_find missing] at mapped
    cases mapped
  obtain ⟨m', κ', escapes, executed, owned', kernel, dirs⟩ :=
    exec_loses_page sound.owned label user mapped single many
  have running : (start.procs (Action.exec initproc (overwriting table) []).slot).life = .alive :=
    alive
  refine ⟨start, setMem start m', overwriting table, booted, ?_, ?_⟩
  · rw [step, if_pos running, call, ProcessMemory.exec]
    simp only [executed, ok_bind]
  intro exact'
  have bounds := sound.owned.inside frame (by simp [user])
  have sameDirs (d : Nat) (live : d ∈ liveDirs (setMem start m')) : κ' d = .pgdir :=
    dirs d ((mem_live_dirs sound d).mp live)
  have notKernel : ¬ KernelPage (setMem start m') frame := by
    rintro (stack | ⟨slot, lives, same⟩ | isDir | ⟨d, live, index, below, target⟩)
    · rw [(sound.kernel.covers frame).mpr (.inl stack)] at user
      cases user
    · have isStack := sound.stack lives
      rw [show (start.procs slot).kstack = frame from same, user] at isStack
      cases isStack
    · rw [sameDirs frame isDir] at kernel
      cases kernel
    · rcases owned'.linked d index (sameDirs d live) below with empty | ⟨other, isTable, links⟩
      · rw [show (setMem start m').mem = m' from rfl, empty] at target
        cases target
      · have inside : other < maxpages := owned'.bound (by simp [isTable])
        rw [show (setMem start m').mem = m' from rfl, links, pteTarget,
          if_pos (table_pte_present other), table_pte_frame inside] at target
        cases target
        rw [isTable] at kernel
        cases kernel
  have none : userPtes (setMem start m') frame = 0 := by
    apply refs_zero
    rintro ⟨d, n⟩ member here
    rw [Finset.mem_product, Finset.mem_range] at member
    have isUser : κ' frame = .user := by
      apply owned'.target_user member.2
      rw [target, if_pos (sameDirs d member.1)]
      exact here
    rw [kernel] at isUser
    cases isUser
  have one : m'.refCount frame = 1 := by
    rw [owned'.counted frame (by simp [kernel]), kernel]
    rfl
  have count := exact'.user frame bounds.1 bounds.2 notKernel
  rw [none, show (setMem start m').mem = m' from rfl, one] at count
  exact one_ne_zero count

end Xv6Hacks.ReferenceCounting
