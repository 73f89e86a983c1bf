import Xv6Hacks.ProcessOwnership

/-!
# From power-on to the first process

`main` frees the first four megabytes, builds the kernel's page directory and the stacks
of the other processors from them, frees the rest of memory and starts the first process.
Every page has its role at the end. The pages that `kinit2` frees have no references
then, because everything before it takes pages from the free list only.
-/

namespace Xv6Hacks.BootSequence

open Function
open AddressSpace Assignments BootMemory ByteBuffers Kalloc Outcomes PageOwnership PageTables
open ProcessMemory ProcessOwnership ReferenceCounts SpaceChanges SpaceGrowth UserSpaces
open GuardedRuns (bind_ok)
open ProcTable (Slot)

/-- Reference counts change for pages of the free list only. -/
structure Draws (m m' : Mem) : Prop where
  fewer : ∀ frame, frame ∈ m'.freelist → frame ∈ m.freelist
  counts : ∀ frame, frame ∉ m.freelist → m'.refCount frame = m.refCount frame

theorem Draws.refl (m : Mem) : Draws m m := ⟨fun _ member => member, fun _ _ => rfl⟩

theorem draws_of_same {m m' : Mem} (list : m'.freelist = m.freelist)
    (counts : m'.refCount = m.refCount) : Draws m m' where
  fewer := fun frame member => by rwa [← list]
  counts := fun frame _ => by rw [counts]

theorem Draws.trans {m m' m'' : Mem} (first : Draws m m') (second : Draws m' m'') : Draws m m'' where
  fewer := fun frame member => first.fewer frame (second.fewer frame member)
  counts := fun frame absent =>
    (second.counts frame fun member => absent (first.fewer frame member)).trans
      (first.counts frame absent)

section Drawing
variable {b : Build} {m m' : Mem} {pgdir : Nat}

theorem kalloc_draws {page : Option Nat} (returned : kalloc b m = .ok (page, m')) : Draws m m' := by
  rw [kalloc] at returned
  split at returned
  · rename_i frame rest list
    split at returned
    · cases returned
      refine ⟨fun other member => ?_, fun _ _ => rfl⟩
      rw [list]
      exact .tail frame member
    · cases returned
      constructor
      · intro other member
        rw [list]
        exact .tail frame member
      · intro other absent
        rw [pop_ref_count, update_of_ne]
        rintro rfl
        exact absent (by rw [list]; exact .head _)
  · split at returned
    · cases returned
      exact Draws.refl _
    · contradiction

theorem walkpgdir_draws {n : Nat} {slot : Option (Nat × Nat)}
    (returned : walkpgdir b m pgdir n = .ok (slot, m')) : Draws m m' := by
  rw [walkpgdir] at returned
  split at returned
  · cases returned
    exact Draws.refl _
  · obtain ⟨⟨page, middle⟩, allocated, returned⟩ := bind_ok.mp returned
    have draws := kalloc_draws allocated
    cases page with
    | none =>
      cases returned
      exact draws
    | some table =>
      cases returned
      exact draws.trans (draws_of_same rfl rfl)

theorem map_loop_draws {perm : Pte} {done : Bool} (count n frame : Nat)
    (returned : mapLoop b pgdir perm count n frame m = .ok (done, m')) : Draws m m' := by
  induction count generalizing m n frame with
  | zero =>
    cases returned
    exact Draws.refl _
  | succ count ih =>
    rw [mapLoop] at returned
    obtain ⟨⟨slot, middle⟩, walked, returned⟩ := bind_ok.mp returned
    have draws := walkpgdir_draws walked
    cases slot with
    | none =>
      cases returned
      exact draws
    | some place =>
      simp only at returned
      split at returned
      · contradiction
      · have written : Draws middle (writeEntry middle place.1 place.2 (makePte frame perm)) :=
          draws_of_same rfl rfl
        exact draws.trans (written.trans (ih _ _ returned))

theorem map_rows_draws {done : Bool} (rows : List Kmap)
    (returned : mapRows b pgdir rows m = .ok (done, m')) : Draws m m' := by
  induction rows generalizing m with
  | nil =>
    cases returned
    exact Draws.refl _
  | cons row rows ih =>
    rw [mapRows] at returned
    obtain ⟨⟨mapped, middle⟩, first, returned⟩ := bind_ok.mp returned
    rw [mappages] at first
    have draws := map_loop_draws _ _ _ first
    cases mapped with
    | false =>
      cases returned
      exact draws
    | true => exact draws.trans (ih returned)

theorem setupkvm_draws {made : Option Nat} (returned : setupkvm b m = .ok (made, m')) :
    Draws m m' := by
  rw [setupkvm] at returned
  obtain ⟨⟨page, middle⟩, allocated, returned⟩ := bind_ok.mp returned
  have draws := kalloc_draws allocated
  cases page with
  | none =>
    cases returned
    exact draws
  | some dir =>
    obtain ⟨⟨mapped, last⟩, rows, returned⟩ := bind_ok.mp returned
    have zeroed : Draws middle (memset middle dir 0) := draws_of_same rfl rfl
    have more := draws.trans (zeroed.trans (map_rows_draws _ rows))
    cases mapped with
    | false =>
      cases returned
      exact more
    | true =>
      cases returned
      exact more

end Drawing

section Parts
variable {b : Build} {κ : Nat → Kind} {m m' : Mem}
variable (counting : b.original = false) (strict : b.kallocNull = false)
variable (owned : Owned b κ none m)
include counting strict owned

theorem startothers_spec (count : Nat) {cpuStacks : List Nat}
    (returned : startothers b count m = .ok (cpuStacks, m')) :
    Owned b (fun frame => if frame ∈ cpuStacks then .kernel else κ frame) none m' ∧
      (∀ frame, frame ∈ cpuStacks → κ frame = .free) ∧ Draws m m' := by
  induction count generalizing κ m cpuStacks with
  | zero =>
    cases returned
    simp only [List.not_mem_nil, ↓reduceIte]
    exact ⟨owned, fun _ none => none.elim, Draws.refl _⟩
  | succ count ih =>
    rw [startothers] at returned
    obtain ⟨⟨page, middle⟩, allocated, returned⟩ := bind_ok.mp returned
    obtain ⟨stack, rest, list, same⟩ := (kalloc_spec counting strict m).of_ok allocated
    cases same
    obtain ⟨⟨others, last⟩, more, returned⟩ := bind_ok.mp returned
    cases returned
    have wasFree := owned.head_free list
    have taken : Owned b (update κ stack .kernel) none (pop m stack rest) :=
      owned.take list (.inl ⟨rfl, rfl⟩)
    obtain ⟨owned', free, draws⟩ := ih taken more
    have roles : (fun frame => if frame ∈ others then Kind.kernel
        else update κ stack .kernel frame) =
          fun frame => if frame ∈ stack :: others then .kernel else κ frame := by
      funext frame
      by_cases this : frame = stack
      · simp [this]
      · simp [this]
    rw [roles] at owned'
    refine ⟨owned', ?_, (kalloc_draws allocated).trans draws⟩
    intro frame member
    rcases List.mem_cons.mp member with rfl | later
    · exact wasFree
    · have before := free frame later
      have different : frame ≠ stack := by
        rintro rfl
        rw [update_self] at before
        contradiction
      rwa [update_of_ne different] at before

theorem userinit_sound {kpgdir : Nat} {cpuStacks : List Nat} {init : List Byte} {start : Sys}
    (range : ∀ frame, b.endFrame ≤ frame → frame < maxpages → κ frame ≠ .outside)
    (dirs : ∀ frame, κ frame = .pgdir ↔ frame = kpgdir)
    (kernel : ∀ frame, κ frame = .kernel ↔ frame ∈ cpuStacks)
    (returned : userinit b kpgdir cpuStacks init m = .ok start) : ∃ κ', Sound b κ' start := by
  rw [userinit] at returned
  obtain ⟨⟨page, first⟩, allocated, returned⟩ := bind_ok.mp returned
  obtain ⟨kstack, rest, list, same⟩ := (kalloc_spec counting strict m).of_ok allocated
  cases same
  have wasFree := owned.head_free list
  have taken : Owned b (update κ kstack .kernel) none (pop m kstack rest) :=
    owned.take list (.inl ⟨rfl, rfl⟩)
  obtain ⟨⟨made, second⟩, built, returned⟩ := bind_ok.mp returned
  obtain ⟨pgdir, κ2, same, fresh, isDir, owned2, grows2, mapped, -, -⟩ :=
    (setupkvm_spec counting strict taken).of_ok built
  simp only at same
  subst same
  obtain ⟨third, filled, returned⟩ := bind_ok.mp returned
  cases returned
  have short : init.length < pgsize := by
    by_contra long
    rw [inituvm, if_pos (by omega)] at filled
    contradiction
  rcases (inituvm_spec counting strict owned2 isDir short (mapped.1 0 (by decide))).of_ok filled
    with ⟨κ3, frame, owned3, grows3, -, -, entries, -, -⟩
  have touches := (grows_touches grows2).trans (grows_touches grows3)
  have isDir3 := grows3.label isDir (by simp)
  have roles (other : Nat) (kind : Kind) (notFree : kind ≠ .free) (notKernel : kind ≠ .kernel) :
      update κ kstack .kernel other = kind ↔ κ other = kind := by
    by_cases isStack : other = kstack
    · rw [isStack, update_self, wasFree]
      simp [notFree.symm, notKernel.symm]
    · rw [update_of_ne isStack]
  have notDir : κ pgdir ≠ .pgdir := by
    intro live
    rw [(roles pgdir .pgdir (by simp) (by simp)).mpr live] at fresh
    contradiction
  have nobody (field : Space → Nat) : held field
      { mem := third, kpgdir := kpgdir, cpuStacks := cpuStacks, procs := fun _ => emptySpace } =
        fun _ => none := by
    funext slot
    exact if_pos rfl
  have noDirs : Assigned (fun frame => κ frame = .pgdir) (fun frame => frame = kpgdir)
      (fun _ : Slot => none) := (assigned_nothing _).congr dirs
  have noStacks : Assigned (fun frame => κ frame = .kernel) (fun frame => frame ∈ cpuStacks)
      (fun _ : Slot => none) := (assigned_nothing _).congr kernel
  have vacant : (fun _ : Slot => (none : Option Nat)) initproc = none := rfl
  refine ⟨κ3, ?_⟩
  constructor
  case owned => exact owned3
  case range =>
    intro other lower upper outside
    have before := (touches.outside other).mp outside
    rw [roles other .outside (by simp) (by simp)] at before
    exact range other lower upper before
  case dirs =>
    rw [held_set, if_neg (by simp), nobody Space.pgdir]
    apply (noDirs.insert vacant notDir).congr
    intro other
    by_cases this : other = pgdir
    · simp [this, isDir3]
    · rw [touches.dirs other this, roles other .pgdir (by simp) (by simp)]
      simp [this]
  case kernel =>
    rw [held_set, if_neg (by simp), nobody Space.kstack]
    apply (noStacks.insert vacant (by simp [wasFree] : ¬ κ kstack = .kernel)).congr
    intro other
    rw [touches.kernel other]
    by_cases isStack : other = kstack
    · simp [isStack]
    · rw [update_of_ne isStack]
      simp [isStack]
  case sized =>
    intro slot used
    have this : slot = initproc := by
      by_contra other
      apply used
      simp only [setSpace, update_of_ne other]
      rfl
    have zero (n : Nat) (inside : n < pagesUp pgsize) : n = 0 := by
      have one : pagesUp pgsize = 1 := by decide
      omega
    have small : Sized third pgdir pgsize := by
      refine ⟨by decide, ?_, ?_⟩
      · intro n above user
        have notZero : n ≠ 0 := by
          rintro rfl
          exact absurd above (by decide)
        rw [entries n (user_page_inside user), if_neg notZero]
        exact mapped.1 n user
      · intro n inside
        rw [zero n inside]
        apply pde_of_entry
        rw [entries 0 (by decide), if_pos rfl]
        intro none
        have present : has (makePte frame (pteW ||| pteU)) pteP = true := make_pte_present
        rw [none] at present
        contradiction
    rw [this]
    simpa [setSpace] using small

end Parts

section Main
variable {b : Build} (counting : b.original = false) (strict : b.kallocNull = false)
include counting

theorem kinit1_spec (page : Nat → Buffer) : ∃ m, kinit1 b (bootMem page) = .ok m ∧
    Owned b (donated (fun _ => .outside) b.endFrame (1024 - b.endFrame)) none m ∧
    (∀ frame, m.refCount frame = 0) ∧ m.freelist.length = 1024 - b.endFrame := by
  have low := b.endMapped
  have high : 1024 ≤ maxpages := by decide
  rcases freerange_spec counting (boot_mem_owned b page) b.endFrame (1024 - b.endFrame)
    (fun _ _ _ => ⟨rfl, rfl⟩) le_rfl (by omega) with ⟨m, done, owned, counts, length⟩
  refine ⟨m, ?_, owned, fun frame => by rw [counts]; rfl, ?_⟩
  · rw [kinit1, show 1024 = b.endFrame + (1024 - b.endFrame) by omega]
    exact done
  · rw [length]
    exact Nat.zero_add _

include strict

theorem kinit2_spec {page : Nat → Buffer} {cpus : Nat} {m1 m2 m3 : Mem} {made : Option Nat}
    {cpuStacks : List Nat} (first : kinit1 b (bootMem page) = .ok m1)
    (built : setupkvm b m1 = .ok (made, m2))
    (started : startothers b cpus m2 = .ok (cpuStacks, m3)) :
    ∃ kpgdir κ m4, made = some kpgdir ∧ kinit2 b m3 = .ok m4 ∧ Owned b κ none m4 ∧
    (∀ frame, b.endFrame ≤ frame → frame < maxpages → κ frame ≠ .outside) ∧
    (∀ frame, κ frame = .pgdir ↔ frame = kpgdir) ∧
    (∀ frame, κ frame = .kernel ↔ frame ∈ cpuStacks) ∧
    m4.freelist.length = m3.freelist.length + (maxpages - 1024) := by
  have low := b.endMapped
  have high : 1024 ≤ maxpages := by decide
  obtain ⟨m, done, owned1, counts1, -⟩ := kinit1_spec counting page
  rw [done] at first
  cases first
  obtain ⟨kpgdir, κ2, same, -, isDir, owned2, grows2, -, -, -⟩ :=
    (setupkvm_spec counting strict owned1).of_ok built
  obtain ⟨owned3, free, draws3⟩ := startothers_spec counting strict owned2 cpus started
  have touches := grows_touches grows2
  -- What is above four megabytes has not been used.
  have outside1 (frame : Nat) (above : 1024 ≤ frame) :
      donated (fun _ => .outside) b.endFrame (1024 - b.endFrame) frame = .outside := by
    rw [donated, if_neg (by omega)]
  have outside2 (frame : Nat) (above : 1024 ≤ frame) : κ2 frame = .outside :=
    (touches.outside frame).mpr (outside1 frame above)
  have notStack {frame : Nat} {kind : Kind} (role : κ2 frame = kind) (used : kind ≠ .free) :
      frame ∉ cpuStacks := fun member => used (role.symm.trans (free frame member))
  have unused (frame : Nat) (above : 1024 ≤ frame) (_ : frame < 1024 + (maxpages - 1024)) :
      (if frame ∈ cpuStacks then Kind.kernel else κ2 frame) = .outside ∧ m3.refCount frame = 0 := by
    have outside := outside2 frame above
    refine ⟨by rw [if_neg (notStack outside (by simp)), outside], ?_⟩
    have absent : frame ∉ m1.freelist := by
      rw [owned1.free frame, outside1 frame above]
      simp
    rw [((setupkvm_draws built).trans draws3).counts frame absent, counts1]
  obtain ⟨m4, done4, owned4, -, length⟩ :=
    freerange_spec counting owned3 1024 (maxpages - 1024) unused low (by omega)
  have early (frame : Nat) : donated (fun _ => Kind.outside) b.endFrame (1024 - b.endFrame) frame ≠
      .pgdir ∧ donated (fun _ => Kind.outside) b.endFrame (1024 - b.endFrame) frame ≠ .kernel := by
    rw [donated]
    split
    · simp
    · simp
  refine ⟨kpgdir, _, m4, same, ?_, owned4, ?_, ?_, ?_, length⟩
  · rw [kinit2, show maxpages = 1024 + (maxpages - 1024) by omega]
    exact done4
  · intro frame lower upper
    rw [donated]
    split
    · simp
    · rename_i below
      split
      · simp
      · intro outside
        have before := (touches.outside frame).mp outside
        rw [donated, if_pos (by omega)] at before
        contradiction
  · intro frame
    rw [donated]
    split
    · rename_i above
      refine iff_of_false (by simp) ?_
      rintro rfl
      rw [outside2 _ above.1] at isDir
      contradiction
    · split
      · rename_i member
        refine iff_of_false (by simp) ?_
        rintro rfl
        rw [free _ member] at isDir
        contradiction
      · by_cases this : frame = kpgdir
        · simp [this, isDir]
        · rw [touches.dirs frame this]
          exact iff_of_false (early frame).1 this
  · intro frame
    rw [donated]
    split
    · rename_i above
      simp [notStack (outside2 frame above.1) (by simp)]
    · split
      · rename_i member
        simp [member]
      · rename_i other
        refine iff_of_false (fun kernel => ?_) other
        exact (early frame).2 ((touches.kernel frame).mp kernel)

theorem main_sound {page : Nat → Buffer} {cpus : Nat} {init : List Byte} {start : Sys}
    (booted : main b page cpus init = .ok start) : ∃ κ, Sound b κ start := by
  rw [main] at booted
  obtain ⟨m1, first, booted⟩ := bind_ok.mp booted
  obtain ⟨⟨made, m2⟩, built, booted⟩ := bind_ok.mp booted
  cases made with
  | none => contradiction
  | some kpgdir =>
    obtain ⟨⟨cpuStacks, m3⟩, started, booted⟩ := bind_ok.mp booted
    obtain ⟨m4, second, booted⟩ := bind_ok.mp booted
    obtain ⟨dir, κ, m, same, done, owned, range, dirs, kernel, -⟩ :=
      kinit2_spec counting strict first built started
    cases same
    rw [done] at second
    cases second
    exact userinit_sound counting strict owned range dirs kernel booted

/-- With 65 pages below four megabytes and one processor `main` gets to the first
process. -/
theorem main_returns (room : b.endFrame + 65 ≤ 1024) (page : Nat → Buffer) {init : List Byte}
    (short : init.length < pgsize) :
    ∃ start, main b page 0 init = .ok start ∧ (start.procs initproc).life = .alive ∧
    (start.procs initproc).sz = pgsize ∧ 1000 < start.mem.freelist.length ∧
    ∃ frame, frame < maxpages ∧
    entry start.mem (start.procs initproc).pgdir 0 = makePte frame (pteW ||| pteU) ∧
    start.mem.refCount frame = 1 := by
  obtain ⟨m1, first, owned1, -, length1⟩ := kinit1_spec counting page
  obtain ⟨⟨made, m2⟩, built, -⟩ :=
    (setupkvm_spec counting strict owned1).returns (by rintro stop ⟨-, few⟩; omega)
  have started : startothers b 0 m2 = .ok ([], m2) := rfl
  obtain ⟨kpgdir, κ, m4, rfl, second, owned, -, -, -, length4⟩ :=
    kinit2_spec counting strict first built started
  have many : 56320 ≤ m4.freelist.length := by
    rw [length4, maxpages_value]
    omega
  rcases (kalloc_spec counting strict m4).returns (by
    rintro stop ⟨-, none⟩
    rw [none] at many
    contradiction) with ⟨result, allocated, kstack, rest, list, rfl⟩
  have taken : Owned b (update κ kstack .kernel) none (pop m4 kstack rest) :=
    owned.take list (.inl ⟨rfl, rfl⟩)
  have left : 56319 ≤ (pop m4 kstack rest).freelist.length := by
    rw [list, List.length_cons] at many
    rw [pop_freelist]
    omega
  obtain ⟨κ5, m5, pgdir, made, owned5, -, isDir, -, empty, cost5⟩ :=
    new_directory counting strict taken (by omega)
  rcases (inituvm_spec counting strict owned5 isDir short (empty 0 (by decide))).returns
    (by rintro stop ⟨-, few⟩; omega) with
    ⟨m6, filled, κ6, frame, owned6, grows6, wasFree, isUser, entries, -, cost6⟩
  have first6 : entry m6 pgdir 0 = makePte frame (pteW ||| pteU) := by
    rw [entries 0 (by decide), if_pos rfl]
  have isDir6 := grows6.label isDir nofun
  have bound : frame < maxpages := owned6.bound (by simp [isUser])
  have single : mappings κ6 m6 frame = 1 := by
    apply refs_single (places_mem owned6 isDir6 (by decide : 0 < userPages))
    · rw [target, if_pos isDir6, first6]
      exact pte_target_make bound (by decide)
    · rintro ⟨d, k⟩ member mapped
      rw [mem_places] at member
      have live := (target_present mapped).1
      rw [target, if_pos live] at mapped
      by_cases this : d = pgdir
      · by_cases zero : k = 0
        · rw [this, zero]
        · rw [this, entries k (user_page_inside member.2), if_neg zero, empty k member.2] at mapped
          cases mapped
      · have live5 := ((grows_touches grows6).dirs d this).mp live
        rw [(grows6.others d this live5).2 k] at mapped
        have user : κ5 frame = .user := owned5.target_user member.2 (by
          rw [target, if_pos live5]
          exact mapped)
        rw [wasFree] at user
        contradiction
  refine ⟨setSpace { mem := m6, kpgdir := kpgdir, cpuStacks := [], procs := fun _ => emptySpace }
    initproc { life := .alive, kstack := kstack, pgdir := pgdir, sz := pgsize, parent := none },
    ?_, ?_, ?_, ?_, frame, bound, ?_, ?_⟩
  · rw [main, first, ok_bind, built, ok_bind]
    simp only [started, ok_bind, second, userinit, allocated, made, filled]
  · simp [setSpace]
  · simp [setSpace]
  · simp only [setSpace]
    omega
  · simpa only [setSpace, update_self] using first6
  · have count := owned6.user_count isUser
    have unheld : share none frame = 0 := rfl
    rw [single, unheld] at count
    exact count

end Main
end Xv6Hacks.BootSequence
