import Xv6Hacks.BootMemory
import Xv6Hacks.PageFault
import Xv6Hacks.SpaceChanges

/-!
# Freeing an address space next to others

`_kfree` fills a page with junk before it looks at the reference count. A page that is
shared through `cowuvm` is therefore overwritten when one of its address spaces shrinks
or is freed, although it stays mapped in the others.
-/

namespace Xv6Hacks.Teardown

open AddressSpace BootMemory ByteBuffers Kalloc PageFault PageOwnership PageTables
open ReferenceCounts SpaceChanges SpaceGrowth SpaceTeardown UserSpaces

/-- The ways in which a directory gives up pages: `freevm` in `wait` and `exec`, and
`deallocuvm` in `growproc`. -/
inductive Release where
  | freevm (pgdir : Nat)
  | deallocuvm (pgdir oldsz newsz : Nat)

def Release.pgdir : Release → Nat
  | .freevm pgdir => pgdir
  | .deallocuvm pgdir _ _ => pgdir

def Release.gone : Release → Nat → Prop
  | .freevm _, n => n < userPages
  | .deallocuvm _ oldsz newsz, n => pagesUp newsz ≤ n ∧ n < pagesUp oldsz

def Release.run (b : Build) (m : Mem) : Release → Except Stop Mem
  | .freevm pgdir => AddressSpace.freevm b m pgdir
  | .deallocuvm pgdir oldsz newsz => do
    let (_, m) ← AddressSpace.deallocuvm b m pgdir oldsz newsz
    .ok m

/-- `growproc` passes the size of the process. -/
def Release.Ready (m : Mem) : Release → Prop
  | .freevm _ => True
  | .deallocuvm pgdir oldsz _ => Sized m pgdir oldsz

def Maps (m : Mem) (pgdir frame : Nat) : Prop :=
  ∃ n, n < userPages ∧ pteTarget (entry m pgdir n) = some frame

def Undisturbed (live : Nat → Prop) (pgdir : Nat) (m m' : Mem) : Prop :=
  ∀ other frame, live other → other ≠ pgdir → Maps m other frame →
    ∀ offset, offset < pgsize → m'.page frame offset = m.page frame offset

/-- The pages that go and that another live directory maps consist of junk already. -/
def SharedJunk (live : Nat → Prop) (release : Release) (m : Mem) : Prop :=
  ∀ other frame n, live other → other ≠ release.pgdir → Maps m other frame →
    release.gone n → pteTarget (entry m release.pgdir n) = some frame →
    ∀ offset, offset < pgsize → m.page frame offset = 1

section Releasing
variable {b : Build} {κ : Nat → Kind} {m : Mem}

/-- What a release does to the pages that are still mapped. -/
structure Filled (release : Release) (κ : Nat → Kind) (m : Mem) (κ' : Nat → Kind) (m' : Mem) :
    Prop where
  touches : Touches (fun frame => frame = release.pgdir) κ m κ' m'
  contents : ∀ frame, κ' frame = .user →
    (∀ n, release.gone n → pteTarget (entry m release.pgdir n) ≠ some frame) →
    m'.page frame = m.page frame
  junk : ∀ frame n, κ' frame = .user → release.gone n →
    pteTarget (entry m release.pgdir n) = some frame → m'.page frame = fun _ => 1

theorem release_spec (counting : b.original = false) (owned : Owned b κ none m) (release : Release)
    (dir : κ release.pgdir = .pgdir) (ready : release.Ready m) :
    ∃ κ' m', release.run b m = .ok m' ∧ Owned b κ' none m' ∧ Filled release κ m κ' m' := by
  cases release with
  | freevm pgdir =>
    obtain ⟨κ', m', done, owned', freed⟩ := freevm_spec counting owned dir
    exact ⟨κ', m', done, owned', freed_touches freed dir, freed.contents, freed.junk⟩
  | deallocuvm pgdir oldsz newsz =>
    by_cases less : newsz < oldsz
    · have start (inside : pagesUp newsz < pagesUp oldsz) : AtTable m pgdir (pagesUp newsz) :=
        .inr (ready.tables _ inside)
      rcases deallocuvm_spec counting owned dir oldsz newsz less (pages_up_user ready.below)
        start with ⟨κ', m', done, owned', released⟩
      refine ⟨κ', m', ?_, owned', released_touches released, released.contents, released.junk⟩
      have returned : AddressSpace.deallocuvm b m pgdir oldsz newsz = .ok (newsz, m') := done
      rw [Release.run, returned]
      rfl
    · have none (n : Nat) : ¬ (pagesUp newsz ≤ n ∧ n < pagesUp oldsz) := by
        have order := pages_up_mono (Nat.le_of_not_lt less)
        omega
      refine ⟨κ, m, ?_, owned, Touches.refl _ κ m, fun _ _ _ => rfl, ?_⟩
      · rw [Release.run, AddressSpace.deallocuvm, if_pos (by omega)]
        rfl
      · exact fun _ n _ gone _ => absurd gone (none n)

theorem still_user {release : Release} {κ' : Nat → Kind} {m' : Mem} {other frame : Nat}
    (filled : Filled release κ m κ' m') (owned : Owned b κ' none m') (live : κ other = .pgdir)
    (different : other ≠ release.pgdir) (maps : Maps m other frame) : κ' frame = .user := by
  obtain ⟨n, user, target⟩ := maps
  have live' : κ' other = .pgdir := (filled.touches.dirs other different).mpr live
  have same := (filled.touches.others other different live).2 n
  apply owned.target_user user
  rw [PageOwnership.target, if_pos live']
  exact (congrArg pteTarget same).trans target

/-- Releasing pages disturbs the other address spaces, unless everything it shares with
them is junk to begin with. -/
theorem release_undisturbed_iff (counting : b.original = false) (owned : Owned b κ none m)
    (release : Release) (dir : κ release.pgdir = .pgdir) (ready : release.Ready m) :
    ∃ m', release.run b m = .ok m' ∧ (Undisturbed (fun d => κ d = .pgdir) release.pgdir m m' ↔
        SharedJunk (fun d => κ d = .pgdir) release m) := by
  obtain ⟨κ', m', done, owned', filled⟩ := release_spec counting owned release dir ready
  refine ⟨m', done, ?_, ?_⟩
  · intro undisturbed other frame n live different maps gone target offset inside
    have user := still_user filled owned' live different maps
    have same := undisturbed other frame live different maps offset inside
    rw [filled.junk frame n user gone target] at same
    exact same.symm
  · intro junk other frame live different maps offset inside
    have user := still_user filled owned' live different maps
    by_cases given : ∃ n, release.gone n ∧ pteTarget (entry m release.pgdir n) = some frame
    · obtain ⟨n, gone, target⟩ := given
      rw [filled.junk frame n user gone target]
      exact (junk other frame n live different maps gone target offset inside).symm
    · rw [filled.contents frame user fun n gone target => given ⟨n, gone, target⟩]

end Releasing

theorem shared_count {b : Build} {κ : Nat → Kind} {m : Mem} {left right frame : Nat}
    (owned : Owned b κ none m) (leftLive : κ left = .pgdir) (rightLive : κ right = .pgdir)
    (different : left ≠ right) (leftMaps : Maps m left frame) (rightMaps : Maps m right frame) :
    1 < m.refCount frame := by
  obtain ⟨n, inside, target⟩ := leftMaps
  obtain ⟨k, inside', target'⟩ := rightMaps
  have atLeft : PageOwnership.target κ m (left, n) = some frame := by
    rw [PageOwnership.target, if_pos leftLive]
    exact target
  have atRight : PageOwnership.target κ m (right, k) = some frame := by
    rw [PageOwnership.target, if_pos rightLive]
    exact target'
  have user : κ frame = .user := owned.target_user inside atLeft
  have several : ¬ mappings κ m frame ≤ 1 := by
    intro single
    have same := refs_unique single (places_mem owned leftLive inside)
      (places_mem owned rightLive inside') atLeft atRight
    exact different (congrArg Prod.fst same)
  have count := owned.user_count user
  have unheld : share none frame = 0 := rfl
  rw [unheld] at count
  omega

/-- A process with one page of zeros has forked; a third directory maps no page. -/
theorem forked_state :
    ∃ κ m spare parent child frame, Owned sampleBuild κ none m ∧ κ spare = .pgdir ∧
    κ parent = .pgdir ∧ κ child = .pgdir ∧ parent ≠ child ∧
    (∀ n, n < userPages → entry m spare n = 0) ∧ Maps m parent frame ∧ Maps m child frame ∧
    m.page frame 0 = 0 := by
  rcases first_process (b := sampleBuild) rfl rfl (by decide : ([] : List Byte).length < pgsize)
    with ⟨κ, m, spare, parent, frame, owned, spareDir, dir, apart, empty, sized, user, first,
      content, many⟩
  have one : pagesUp pgsize = 1 := by decide
  have present : has (entry m parent 0) pteP = true := by
    rw [first]
    exact make_pte_present
  have inside : frame < maxpages := owned.bound (by simp [user])
  rcases (cowuvm_spec rfl rfl owned dir sized.below).returns (by
    rintro stop (⟨-, short⟩ | ⟨-, k, below, absent⟩)
    · omega
    · rw [show k = 0 by omega, present] at absent
      contradiction) with ⟨⟨made, after⟩, -, child, κ', same, forked, shared, -⟩
  simp only at forked shared
  have notSpare : spare ≠ child := by
    rintro rfl
    exact absurd forked.fresh (by simp [spareDir])
  have notParent : parent ≠ child := by
    rintro rfl
    exact absurd forked.fresh (by simp [dir])
  have parentFirst : entry after parent 0 = makePte frame (pteW ||| pteU) := by
    rw [(forked.grows.others parent notParent dir).2 0, first]
  refine ⟨κ', after, spare, parent, child, frame, forked.owned, ?_, ?_, forked.child, notParent,
    ?_, ⟨0, by decide, ?_⟩, ⟨0, by decide, ?_⟩, ?_⟩
  · exact forked.grows.label spareDir nofun
  · exact forked.grows.label dir nofun
  · intro n below
    rw [(forked.grows.others spare notSpare spareDir).2 n]
    exact empty n below
  · rw [parentFirst]
    exact pte_target_make inside (by decide)
  · rw [shared 0 (by omega), cowPte, first, make_pte_frame (frame_in_space inside) (by decide)]
    exact pte_target_make inside (cow_flags_small _)
  · rw [forked.grows.contents frame user, content]
    rfl

/-- Freeing a directory without user pages next to a shared page. -/
theorem spare_release_undisturbed : ∃ κ m spare m', Owned sampleBuild κ none m ∧ κ spare = .pgdir ∧
      (∃ frame, 1 < m.refCount frame) ∧ (Release.freevm spare).run sampleBuild m = .ok m' ∧
      Undisturbed (fun d => κ d = .pgdir) spare m m' := by
  rcases forked_state with ⟨κ, m, spare, parent, child, frame, owned, spareDir, parentDir,
    childDir, different, empty, parentMaps, childMaps, -⟩
  obtain ⟨m', done, iff⟩ := release_undisturbed_iff rfl owned (.freevm spare) spareDir trivial
  have shared := shared_count owned parentDir childDir different parentMaps childMaps
  refine ⟨κ, m, spare, m', owned, spareDir, ⟨frame, shared⟩, done, iff.mpr ?_⟩
  intro other page n live apart maps gone target
  rw [show (Release.freevm spare).pgdir = spare from rfl, empty n gone] at target
  cases target

/-- The child is freed, and the parent's page holds junk. -/
theorem parent_page_overwritten :
    ∃ κ m parent child frame m', Owned sampleBuild κ none m ∧ κ parent = .pgdir ∧
      κ child = .pgdir ∧ parent ≠ child ∧ Maps m parent frame ∧ 1 < m.refCount frame ∧
      (Release.freevm child).run sampleBuild m = .ok m' ∧ Maps m' parent frame ∧
      m.page frame 0 = 0 ∧ m'.page frame 0 = 1 ∧
      ¬ Undisturbed (fun d => κ d = .pgdir) child m m' := by
  rcases forked_state with ⟨κ, m, spare, parent, child, frame, owned, spareDir, parentDir,
    childDir, different, empty, parentMaps, childMaps, zero⟩
  obtain ⟨κ', m', done, owned', filled⟩ := release_spec rfl owned (.freevm child) childDir trivial
  have shared := shared_count owned parentDir childDir different parentMaps childMaps
  have user := still_user filled owned' parentDir different parentMaps
  have junk : m'.page frame 0 = 1 := by
    obtain ⟨n, inside, target⟩ := childMaps
    rw [filled.junk frame n user inside target]
  have still : Maps m' parent frame := by
    obtain ⟨n, inside, target⟩ := parentMaps
    refine ⟨n, inside, ?_⟩
    rw [(filled.touches.others parent different parentDir).2 n]
    exact target
  refine ⟨κ, m, parent, child, frame, m', owned, parentDir, childDir, different, parentMaps,
    shared, done, still, zero, junk, ?_⟩
  intro undisturbed
  have same := undisturbed parent frame parentDir different parentMaps 0 (by decide)
  rw [zero, junk] at same
  exact absurd same (by decide)

end Xv6Hacks.Teardown
