import Xv6Hacks.Assignments
import Xv6Hacks.ExecSafety
import Xv6Hacks.FaultOwnership
import Xv6Hacks.ProcessMemory

/-!
# Roles of pages under the calls of processes

Every page from `end` to `PHYSTOP` is free, a kernel stack, a page directory or page
table of a live process, or a user page. Each call keeps this, and the address space of
every process in its shape, provided that an executable is loaded into its own pages.
-/

namespace Xv6Hacks.ProcessOwnership

open Function
open AddressSpace Assignments ByteBuffers ExecSafety FaultOwnership
open Kalloc Outcomes PageOwnership PageTables ProcessMemory
open SpaceChanges SpaceGrowth SpaceTeardown UserSpaces
open ProcTable (Slot)

def Used (sys : Sys) (slot : Slot) : Prop := (sys.procs slot).life ≠ .unused

def held (field : Space → Nat) (sys : Sys) (slot : Slot) : Option Nat :=
  if (sys.procs slot).life = .unused then none else some (field (sys.procs slot))

structure Sound (b : Build) (κ : Nat → Kind) (sys : Sys) : Prop where
  owned : Owned b κ none sys.mem
  range : ∀ frame, b.endFrame ≤ frame → frame < maxpages → κ frame ≠ .outside
  dirs : Assigned (fun frame => κ frame = .pgdir) (fun frame => frame = sys.kpgdir) (held Space.pgdir sys)
  kernel : Assigned (fun frame => κ frame = .kernel) (fun frame => frame ∈ sys.cpuStacks)
    (held Space.kstack sys)
  sized : ∀ slot, Used sys slot → Sized sys.mem (sys.procs slot).pgdir (sys.procs slot).sz

section Tables
variable {b : Build} {κ κ' : Nat → Kind} {sys : Sys} {m : Mem} {slot : Slot} {space : Space}

theorem held_used (field : Space → Nat) (used : Used sys slot) :
    held field sys slot = some (field (sys.procs slot)) :=
  if_neg used

theorem held_set (field : Space → Nat) (sys : Sys) (slot : Slot) (space : Space) :
    held field (setSpace sys slot space) = update (held field sys) slot
      (if space.life = .unused then none else some (field space)) := by
  funext other
  by_cases same : other = slot
  · rw [same, update_self]
    simp only [held, setSpace, update_self]
  · rw [update_of_ne same]
    simp only [held, setSpace, update_of_ne same]

theorem held_same (field : Space → Nat) (used : Used sys slot) (lives : space.life ≠ .unused)
    (same : field space = field (sys.procs slot)) :
    held field (setSpace (setMem sys m) slot space) = held field sys := by
  rw [held_set, if_neg lives, same]
  exact update_eq_self_iff.mpr (held_used field used).symm

section
variable (sound : Sound b κ sys) (used : Used sys slot)
include sound used

theorem Sound.dir : κ (sys.procs slot).pgdir = .pgdir :=
  sound.dirs.held (held_used Space.pgdir used)

theorem Sound.stack : κ (sys.procs slot).kstack = .kernel :=
  sound.kernel.held (held_used Space.kstack used)

theorem Sound.other_dir {other : Slot} (otherUsed : Used sys other) (different : other ≠ slot) :
    (sys.procs other).pgdir ≠ (sys.procs slot).pgdir := by
  intro same
  apply different
  apply sound.dirs.once other slot (sys.procs slot).pgdir
  · rw [held_used Space.pgdir otherUsed, same]
  · exact held_used Space.pgdir used

end

theorem Sound.replace (sound : Sound b κ sys) (owned : Owned b κ' none m)
    (outside : ∀ frame, κ' frame = .outside → κ frame = .outside)
    (dirs : Assigned (fun frame => κ' frame = .pgdir) (fun frame => frame = sys.kpgdir)
      (held Space.pgdir (setSpace (setMem sys m) slot space)))
    (kernel : Assigned (fun frame => κ' frame = .kernel) (fun frame => frame ∈ sys.cpuStacks)
      (held Space.kstack (setSpace (setMem sys m) slot space)))
    (own : space.life ≠ .unused → Sized m space.pgdir space.sz)
    (others : ∀ other, Used sys other → other ≠ slot →
      Sized m (sys.procs other).pgdir (sys.procs other).sz) :
    Sound b κ' (setSpace (setMem sys m) slot space) where
  owned := owned
  range := fun frame lower upper gone => sound.range frame lower upper (outside frame gone)
  dirs := dirs
  kernel := kernel
  sized := by
    intro other used
    by_cases same : other = slot
    · rw [same] at used ⊢
      simpa [setSpace, setMem] using own (by simpa [Used, setSpace] using used)
    · have before : Used sys other := by
        simpa [Used, setSpace, setMem, update_of_ne same] using used
      simpa [setSpace, setMem, update_of_ne same] using others other before same

theorem set_space_self (sys : Sys) (m : Mem) (slot : Slot) :
    setSpace (setMem sys m) slot (sys.procs slot) = setMem sys m := by
  rw [setSpace, setMem, update_eq_self]

section
variable (sound : Sound b κ sys) (used : Used sys slot) (owned : Owned b κ' none m)
  (touches : Touches (fun frame => frame = (sys.procs slot).pgdir) κ sys.mem κ' m)
  (dir : κ' (sys.procs slot).pgdir = .pgdir)
include sound used owned touches dir

theorem Sound.change {sz : Nat} (sized : Sized m (sys.procs slot).pgdir sz) :
    Sound b κ' (setSpace (setMem sys m) slot { sys.procs slot with sz := sz }) := by
  have lives : ({ sys.procs slot with sz := sz } : Space).life ≠ .unused := used
  refine sound.replace owned (fun frame => (touches.outside frame).mp) ?_ ?_ (fun _ => sized) ?_
  · rw [held_same Space.pgdir used lives rfl]
    apply sound.dirs.congr
    intro frame
    by_cases here : frame = (sys.procs slot).pgdir
    · rw [here]
      exact iff_of_true dir (sound.dir used)
    · exact touches.dirs frame here
  · rw [held_same Space.kstack used lives rfl]
    exact sound.kernel.congr touches.kernel
  · intro other before different
    exact touches.sized (sound.other_dir used before different) (sound.dir before)
      (sound.sized other before)

theorem Sound.change_pages (sized : Sized m (sys.procs slot).pgdir (sys.procs slot).sz) :
    Sound b κ' (setMem sys m) := by
  have changed := sound.change used owned touches dir sized
  rwa [set_space_self] at changed

theorem Sound.change_size {sz : Nat} (positive : sz ≠ 0 → Sized m (sys.procs slot).pgdir sz)
    (zero : sz = 0 → Sized m (sys.procs slot).pgdir (sys.procs slot).sz) :
    Sound b κ' (setSize sys slot m sz) := by
  rw [setSize]
  split
  · rename_i failed
    exact sound.change_pages used owned touches dir (zero failed)
  · rename_i grown
    exact sound.change used owned touches dir (positive grown)

end

theorem Sound.relabel (sound : Sound b κ sys) (procs : Slot → Space)
    (same : ∀ slot, ((procs slot).life = .unused ↔ (sys.procs slot).life = .unused) ∧
      (procs slot).kstack = (sys.procs slot).kstack ∧
      (procs slot).pgdir = (sys.procs slot).pgdir ∧ (procs slot).sz = (sys.procs slot).sz) :
    Sound b κ { sys with procs := procs } := by
  have fields (field : Space → Nat) (kept : ∀ slot, field (procs slot) = field (sys.procs slot)) :
      held field { sys with procs := procs } = held field sys := by
    funext slot
    simp only [held, (same slot).1, kept slot]
  constructor
  case owned => exact sound.owned
  case range => exact sound.range
  case dirs =>
    rw [fields Space.pgdir fun slot => (same slot).2.2.1]
    exact sound.dirs
  case kernel =>
    rw [fields Space.kstack fun slot => (same slot).2.1]
    exact sound.kernel
  case sized =>
    intro slot used
    simp only [(same slot).2.2.1, (same slot).2.2.2]
    exact sound.sized slot fun unused => used ((same slot).1.mpr unused)

end Tables

section Calls
variable {b : Build} {κ : Nat → Kind} {sys : Sys} {slot : Slot}
variable (sound : Sound b κ sys) (used : Used sys slot)
include sound used

theorem exit_sound : Yields (exit sys slot) (Sound b κ) (fun stop => stop = .initExiting) := by
  rw [exit]
  split
  · rfl
  · apply sound.relabel
    intro other
    by_cases this : other = slot
    · have lives : (sys.procs other).life ≠ .unused := by
        rw [this]
        exact used
      simp only [if_pos this]
      split
      · simp [lives]
      · simp [lives]
    · simp only [if_neg this]
      split
      · simp
      · simp

variable (counting : b.original = false) (strict : b.kallocNull = false)
include counting strict

theorem store_sound {va : Nat} (value : Byte) (address : va / pgsize < userPages)
    (access : has (entry sys.mem (sys.procs slot).pgdir (va / pgsize)) pteU = true) :
    Yields (store b sys slot va value) (fun after => ∃ κ', Sound b κ' after)
    (fun stop => stop = .nullRun ∨ stop = .notCow) := by
  have dir := sound.dir used
  rw [store]
  simp only
  split
  · rename_i writable
    have present : has (entry sys.mem (sys.procs slot).pgdir (va / pgsize)) pteP = true := by
      simp only [Bool.and_eq_true] at writable
      exact writable.1.1
    have user := sound.owned.present_user dir address present
    have writes := user_writes_set_page (m := sys.mem) user (update (sys.mem.page
      (pteFrame (entry sys.mem (sys.procs slot).pgdir (va / pgsize)))) (va % pgsize) value)
    have touches := writes.touches sound.owned
    exact ⟨κ, sound.change_pages used (writes.owned sound.owned)
      (touches.mono fun _ none => none.elim) dir
      (touches.sized (fun none => none) dir (sound.sized slot used))⟩
  · apply (pgflthandler_spec counting strict sound.owned dir address access).seq
    · exact fun _ stopped => stopped.imp (fun short => short.1) fun plain => plain.1
    rintro m ⟨κ', faulted⟩
    have dir' : κ' (sys.procs slot).pgdir = .pgdir := by
      rw [faulted.grows.kinds _ (by simp [dir]), dir]
    have sized := sound.sized slot used
    refine ⟨κ', sound.change_pages used faulted.owned (grows_touches faulted.grows) dir' ?_⟩
    refine ⟨sized.below, ?_, fun n inside => faulted.grows.kept dir _ (sized.tables n inside)⟩
    intro n above user
    have different : n ≠ va / pgsize := by
      rintro rfl
      rw [sized.absent _ above user] at access
      contradiction
    rw [faulted.entries n (user_page_inside user) different]
    exact sized.absent n above user

theorem growproc_sound (n : Int) :
    Yields (growproc b sys slot n) (fun after => ∃ κ', Sound b κ' after)
    (fun stop => stop = .nullRun) := by
  have dir := sound.dir used
  have sized := sound.sized slot used
  rw [growproc]
  generalize (((sys.procs slot).sz + n) % 2 ^ 32).toNat = newsz
  simp only
  split
  · apply (allocuvm_spec counting strict sound.owned dir newsz sized).seq
    · exact fun _ stopped => stopped.1
    rintro ⟨sz, after⟩ (⟨-, same⟩ | ⟨-, same⟩ | ⟨more, below, rfl, κ', owned, grows, pages, -⟩)
    · cases same
      exact ⟨κ, sound.change_size used sound.owned (Touches.refl _ κ _) dir
        (fun nonzero => absurd rfl nonzero) fun _ => sized⟩
    · cases same
      exact ⟨κ, sound.change_size used sound.owned (Touches.refl _ κ _) dir
        (fun _ => sized) fun _ => sized⟩
    · have dir' : κ' (sys.procs slot).pgdir = .pgdir := by
        rw [grows.kinds _ (by simp [dir]), dir]
      have grown := sized.grow dir more below grows pages
      simp only at more owned grows grown
      refine ⟨κ', sound.change_size used owned (grows_touches grows) dir' (fun _ => grown) ?_⟩
      intro empty
      have zero : sz = 0 := empty
      rw [zero] at grown more
      have old : (sys.procs slot).sz = 0 := Nat.le_zero.mp more
      rw [old]
      exact grown
  · split
    · by_cases less : newsz < (sys.procs slot).sz
      · have start (inside : pagesUp newsz < pagesUp (sys.procs slot).sz) :
            AtTable sys.mem (sys.procs slot).pgdir (pagesUp newsz) :=
          .inr (sized.tables _ inside)
        rcases deallocuvm_spec counting sound.owned dir _ newsz less
          (pages_up_user sized.below) start with ⟨κ', after, returned, owned, released⟩
        have touches := released_touches released
        have dir' : κ' (sys.procs slot).pgdir = .pgdir := by
          rw [released.role_structural (by simp [dir]), dir]
        -- The entries above the new size are gone, and all page tables are still there.
        have absent (n : Nat) (above : pagesUp newsz ≤ n) (user : n < userPages) :
            entry after (sys.procs slot).pgdir n = 0 := by
          by_cases gone : n < pagesUp (sys.procs slot).sz
          · exact released.cleared n (user_page_inside user) ⟨above, gone⟩
          · rw [released.kept n (user_page_inside user) fun here => gone here.2]
            exact sized.absent n (by omega) user
        have tables (n : Nat) (inside : n < pagesUp (sys.procs slot).sz) :
            readEntry after (sys.procs slot).pgdir (pdx n) ≠ 0 := by
          rw [read_entry_congr _ (pdx n) released.directory]
          exact sized.tables n inside
        have order := pages_up_mono (less.le)
        rw [returned, ok_bind]
        refine ⟨κ', sound.change_size used owned touches dir' ?_ ?_⟩
        · intro _
          have below := sized.below
          exact ⟨by omega, absent, fun n inside => tables n (inside.trans_le order)⟩
        · intro _
          exact ⟨sized.below, fun n above user => absent n (by omega) user, tables⟩
      · rw [deallocuvm, if_pos (by omega)]
        exact ⟨κ, sound.change_size used sound.owned (Touches.refl _ κ _) dir
          (fun _ => sized) fun _ => sized⟩
    · exact ⟨κ, sound⟩

theorem exec_sound {file : List Byte} (argv : List (List Byte)) (ok : ExecOk b sys.mem file) :
    Yields (ProcessMemory.exec b sys slot file argv) (fun after => ∃ κ', Sound b κ' after)
    (fun stop => stop = .nullRun ∨ stop = .nullPte) := by
  have dir := sound.dir used
  rw [ProcessMemory.exec]
  apply (exec_spec counting strict sound.owned dir argv ok).seq
  · exact fun _ stopped => stopped.imp_right fun null => null.1
  rintro ⟨after, space, escapes⟩ ⟨-, κ', owned, made⟩
  cases space with
  | none =>
    simp only at owned made ⊢
    have dir' := (made.dirs (sys.procs slot).pgdir (fun none => none)).mpr dir
    exact ⟨κ', sound.change_pages used owned (made.mono fun _ none => none.elim) dir'
      (made.sized (fun none => none) dir (sound.sized slot used))⟩
  | some new =>
    obtain ⟨pgdir, sz⟩ := new
    obtain ⟨touches, fresh, isDir, gone, sized⟩ := made
    simp only at owned touches sized ⊢
    have lives : ({ sys.procs slot with pgdir := pgdir, sz := sz } : Space).life ≠ .unused := used
    have isNew {other : Nat} (live : κ other = .pgdir) : other ≠ pgdir := by
      rintro rfl
      rw [live] at fresh
      contradiction
    refine ⟨κ', sound.replace owned (fun frame => (touches.outside frame).mp) ?_ ?_
      (fun _ => sized) ?_⟩
    · rw [held_set, if_neg lives]
      apply (sound.dirs.exchange (held_used Space.pgdir used)
        (by simp [fresh] : ¬ κ pgdir = .pgdir)).congr
      intro frame
      by_cases isOld : frame = (sys.procs slot).pgdir
      · rw [isOld, gone]
        simp [isNew dir]
      · by_cases this : frame = pgdir
        · simp [this, isDir]
        · rw [touches.dirs frame (not_or.mpr ⟨isOld, this⟩)]
          simp [isOld, this]
    · rw [held_same Space.kstack used lives rfl]
      exact sound.kernel.congr touches.kernel
    · intro other before different
      exact touches.sized (not_or.mpr ⟨sound.other_dir used before different,
        isNew (sound.dir before)⟩) (sound.dir before) (sound.sized other before)

omit used strict in
theorem wait_sound :
    Yields (wait b sys slot) (fun after => ∃ κ', Sound b κ' after) (fun _ => False) := by
  rw [wait]
  cases found : findZombie sys slot with
  | none => exact ⟨κ, sound⟩
  | some child =>
    have zombie : (sys.procs child).parent = some slot ∧ (sys.procs child).life = .zombie := by
      simpa using List.find?_some found
    have lives : Used sys child := by simp [Used, zombie.2]
    have dir := sound.dir lives
    have stack := sound.stack lives
    have notStack {frame : Nat} {kind : Kind} (role : κ frame = kind) (other : kind ≠ .kernel) :
        frame ≠ (sys.procs child).kstack := by
      rintro rfl
      exact other (role.symm.trans stack)
    -- First the kernel stack, then the address space.
    have owned1 := sound.owned.drop_kernel stack
    have pages (frame : Nat) (structural : (κ frame).structural = true) :
        (drop sys.mem (sys.procs child).kstack).page frame = sys.mem.page frame := by
      apply drop_page_other
      rintro rfl
      rw [stack] at structural
      contradiction
    have touches1 : Touches (fun _ => False) κ sys.mem κ (drop sys.mem (sys.procs child).kstack) :=
      touches_contents sound.owned pages
    have dir1 : update κ (sys.procs child).kstack .free (sys.procs child).pgdir =
        .pgdir := by
      rw [update_of_ne (notStack dir (by simp)), dir]
    obtain ⟨κ', m, freed, owned, gone⟩ := freevm_spec counting owned1 dir1
    have touches := freed_touches gone dir1
    simp only [kfree_kernel counting sound.owned stack, ok_bind, freed]
    have roles (frame : Nat) (kind : Kind) (notFree : kind ≠ .free) :
        update κ (sys.procs child).kstack .free frame = kind ↔
          κ frame = kind ∧ frame ≠ (sys.procs child).kstack := by
      by_cases isStack : frame = (sys.procs child).kstack
      · rw [isStack, update_self]
        simp [notFree.symm]
      · rw [update_of_ne isStack]
        simp [isStack]
    refine ⟨κ', sound.replace owned ?_ ?_ ?_ (fun lives => absurd rfl lives) ?_⟩
    · intro frame outside
      exact ((roles frame .outside (by simp)).mp ((touches.outside frame).mp outside)).1
    · rw [held_set, if_pos rfl]
      apply (sound.dirs.erase (held_used Space.pgdir lives)).congr
      intro frame
      by_cases this : frame = (sys.procs child).pgdir
      · rw [this, gone.gone]
        simp
      · rw [touches.dirs frame this, roles frame .pgdir (by simp)]
        constructor
        · exact fun here => ⟨here.1, this⟩
        · exact fun here => ⟨here.1, notStack here.1 (by simp)⟩
    · rw [held_set, if_pos rfl]
      apply (sound.kernel.erase (held_used Space.kstack lives)).congr
      intro frame
      rw [touches.kernel frame]
      exact roles frame .kernel (by simp)
    · intro other before different
      have live := sound.dir before
      have live1 : update κ (sys.procs child).kstack .free (sys.procs other).pgdir = .pgdir := by
        rw [update_of_ne (notStack live (by simp)), live]
      exact touches.sized (sound.other_dir lives before different) live1
        (touches1.sized (fun none => none) live (sound.sized other before))

theorem fork_sound : Yields (fork b sys slot) (fun after => ∃ κ', Sound b κ' after)
    (fun stop => stop = .nullRun ∨ stop = .pteShouldExist ∨ stop = .pageNotPresent) := by
  rw [fork]
  cases found : findUnused sys with
  | none => exact ⟨κ, sound⟩
  | some child =>
    have unused : (sys.procs child).life = .unused := by simpa using List.find?_some found
    have dir := sound.dir used
    have sized := sound.sized slot used
    apply (kalloc_spec counting strict sys.mem).seq
    · exact fun _ stopped => .inl stopped.1
    rintro result ⟨kstack, rest, list, rfl⟩
    have wasFree := sound.owned.head_free list
    have notStack {frame : Nat} {kind : Kind} (role : κ frame = kind) (other : kind ≠ .free) :
        frame ≠ kstack := by
      rintro rfl
      exact other (role.symm.trans wasFree)
    have owned1 : Owned b (update κ kstack .kernel) none (pop sys.mem kstack rest) :=
      sound.owned.take list (.inl ⟨rfl, rfl⟩)
    have dir1 : update κ kstack .kernel (sys.procs slot).pgdir = .pgdir := by
      rw [update_of_ne (notStack dir (by simp)), dir]
    have touches1 : Touches (fun _ => False) κ sys.mem κ (pop sys.mem kstack rest) :=
      touches_contents sound.owned fun _ _ => rfl
    apply (cowuvm_spec counting strict owned1 dir1 sized.below).seq
    · rintro stop (⟨rfl, -⟩ | ⟨which, -⟩)
      · exact .inl rfl
      · exact .inr which
    rintro ⟨made, m⟩ ⟨pgdir, κ', rfl, forked, shared, -⟩
    simp only at forked shared ⊢
    have touches := grows_touches forked.grows
    have roles (frame : Nat) (kind : Kind) (notFree : kind ≠ .free) (notKernel : kind ≠ .kernel) :
        update κ kstack .kernel frame = kind ↔ κ frame = kind := by
      by_cases isStack : frame = kstack
      · rw [isStack, update_self, wasFree]
        simp [notFree.symm, notKernel.symm]
      · rw [update_of_ne isStack]
    have fresh : κ pgdir ≠ .pgdir := by
      intro live
      have still := forked.fresh
      rw [(roles pgdir .pgdir (by simp) (by simp)).mpr live] at still
      contradiction
    have empty (field : Space → Nat) : held field sys child = none := if_pos unused
    refine ⟨κ', sound.replace forked.owned ?_ ?_ ?_ (fun _ => ?_) ?_⟩
    · intro frame outside
      exact (roles frame .outside (by simp) (by simp)).mp ((touches.outside frame).mp outside)
    · rw [held_set, if_neg (by simp)]
      apply (sound.dirs.insert (empty Space.pgdir) fresh).congr
      intro frame
      by_cases this : frame = pgdir
      · simp [this, forked.child]
      · rw [touches.dirs frame this, roles frame .pgdir (by simp) (by simp)]
        simp [this]
    · rw [held_set, if_neg (by simp)]
      apply (sound.kernel.insert (empty Space.kstack)
        (by simp [wasFree] : ¬ κ kstack = .kernel)).congr
      intro frame
      rw [touches.kernel frame]
      by_cases isStack : frame = kstack
      · simp [isStack]
      · rw [update_of_ne isStack]
        simp [isStack]
    · refine ⟨sized.below, forked.absent, fun n inside => ?_⟩
      apply pde_of_entry
      rw [shared n inside]
      intro zero
      have present : has (cowPte (entry (pop sys.mem kstack rest) (sys.procs slot).pgdir n))
        pteP = true := make_pte_present
      rw [zero] at present
      contradiction
    · intro other before _
      have live := sound.dir before
      have live1 : update κ kstack .kernel (sys.procs other).pgdir = .pgdir :=
        (roles _ .pgdir (by simp) (by simp)).mpr live
      have apart : (sys.procs other).pgdir ≠ pgdir := by
        rintro rfl
        exact fresh live
      exact touches.sized apart live1
        (touches1.sized (fun none => none) live (sound.sized other before))

end Calls

/-- Stores go to pages that are open to the user, and what is executed is loaded into pages
of its own. -/
def Harmless (b : Build) (sys : Sys) : Action → Prop
  | .store slot va _ => va / pgsize < userPages ∧
      has (entry sys.mem (sys.procs slot).pgdir (va / pgsize)) pteU = true
  | .exec _ file _ => ExecOk b sys.mem file
  | _ => True

section Runs
variable {b : Build} (counting : b.original = false) (strict : b.kallocNull = false)
include counting strict

theorem step_sound {κ : Nat → Kind} {sys : Sys} (sound : Sound b κ sys) {action : Action}
    (harmless : Harmless b sys action) :
    Yields (step b sys action) (fun after => ∃ κ', Sound b κ' after)
    (fun stop => stop ≠ .refCountFreeing) := by
  rw [step]
  split
  · rename_i alive
    have used : Used sys action.slot := by simp [Used, alive]
    cases action with
    | fork slot =>
      refine (fork_sound sound used counting strict).mono (fun _ kept => kept) ?_
      rintro stop (rfl | rfl | rfl)
      · simp
      · simp
      · simp
    | store slot va value =>
      refine (store_sound sound used counting strict value harmless.1 harmless.2).mono
        (fun _ kept => kept) ?_
      rintro stop (rfl | rfl)
      · simp
      · simp
    | growproc slot n =>
      refine (growproc_sound sound used counting strict n).mono (fun _ kept => kept) ?_
      rintro stop rfl
      simp
    | exec slot file argv =>
      refine (exec_sound sound used counting strict argv harmless).mono (fun _ kept => kept) ?_
      rintro stop (rfl | rfl)
      · simp
      · simp
    | exit slot =>
      refine (exit_sound sound used).mono (fun _ kept => ⟨κ, kept⟩) ?_
      rintro stop rfl
      simp
    | wait slot =>
      exact (wait_sound sound counting).mono (fun _ kept => kept) (fun _ never => never.elim)
  · simp [Yields]

end Runs
end Xv6Hacks.ProcessOwnership
