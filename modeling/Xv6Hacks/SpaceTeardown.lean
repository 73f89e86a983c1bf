import Xv6Hacks.PageTableOwnership

/-!
# Taking address spaces apart

`deallocuvm` and `freevm`, in the build that counts references. Both return in every
state that agrees with its labels. They unmap pages of one directory only; a page that
loses a mapping is filled with junk whether or not another directory still maps it,
because `kfree` fills the page before it looks at the count.
-/

namespace Xv6Hacks.SpaceTeardown

open AddressSpace Function Kalloc Outcomes PageOwnership PageTables

variable {pgdir frame n : Nat} {m m' : Mem} {gone : Nat → Prop} {κ : Nat → Kind}

/-- The mappings of `pgdir` at the pages of `gone` have been removed. -/
structure Released (pgdir : Nat) (gone : Nat → Prop) (κ : Nat → Kind) (m : Mem)
    (κ' : Nat → Kind) (m' : Mem) : Prop where
  roles : ∀ frame, κ' frame = κ frame ∨ (κ frame = .user ∧ κ' frame = .free)
  directory : m'.page pgdir = m.page pgdir
  others : ∀ other, other ≠ pgdir → κ other = .pgdir →
    m'.page other = m.page other ∧ ∀ n, entry m' other n = entry m other n
  cleared : ∀ k, k < vpages → gone k → entry m' pgdir k = 0
  kept : ∀ k, k < vpages → ¬ gone k → entry m' pgdir k = entry m pgdir k
  contents : ∀ frame, κ' frame = .user →
    (∀ k, gone k → pteTarget (entry m pgdir k) ≠ some frame) → m'.page frame = m.page frame
  junk : ∀ frame k, κ' frame = .user → gone k → pteTarget (entry m pgdir k) = some frame →
    m'.page frame = fun _ => 1

theorem Released.role_user {κ' : Nat → Kind} (released : Released pgdir gone κ m κ' m')
    (user : κ' frame = .user) : κ frame = .user := by
  rcases released.roles frame with same | ⟨wasUser, -⟩
  · rw [← same, user]
  · exact wasUser

theorem Released.role_structural {κ' : Nat → Kind} (released : Released pgdir gone κ m κ' m')
    (role : κ frame ≠ .user) : κ' frame = κ frame := by
  rcases released.roles frame with same | ⟨wasUser, -⟩
  · exact same
  · exact absurd wasUser role

theorem Released.label {κ' : Nat → Kind} {kind : Kind} (released : Released pgdir gone κ m κ' m')
    (label : κ frame = kind) (role : kind ≠ .user) : κ' frame = kind := by
  rw [← label] at role ⊢
  exact released.role_structural role

theorem Released.none (empty : ∀ k, gone k → entry m pgdir k = 0) :
    Released pgdir gone κ m κ m where
  roles := fun _ => .inl rfl
  directory := rfl
  others := fun _ _ _ => ⟨rfl, fun _ => rfl⟩
  cleared := fun k _ here => empty k here
  kept := fun _ _ _ => rfl
  contents := fun _ _ _ => rfl
  junk := by
    intro frame k _ here mapped
    rw [empty k here] at mapped
    contradiction

theorem Released.trans {now later : Nat → Prop} {κ' κ'' : Nat → Kind} {m'' : Mem}
    (first : Released pgdir now κ m κ' m') (second : Released pgdir later κ' m' κ'' m'')
    (split : ∀ k, gone k ↔ now k ∨ later k) (apart : ∀ k, now k → ¬ later k)
    (user : ∀ k, gone k → k < vpages) : Released pgdir gone κ m κ'' m'' := by
  have entries (k : Nat) (here : later k) : entry m' pgdir k = entry m pgdir k :=
    first.kept k (user k ((split k).mpr (.inr here))) fun before => apart k before here
  constructor
  · intro frame
    rcases second.roles frame with same | ⟨wasUser, isFree⟩
    · rw [same]
      exact first.roles frame
    · exact .inr ⟨first.role_user wasUser, isFree⟩
  · rw [second.directory, first.directory]
  · intro other different isDir
    have stillDir := first.label isDir nofun
    obtain ⟨page, same⟩ := first.others other different isDir
    obtain ⟨page', same'⟩ := second.others other different stillDir
    exact ⟨page'.trans page, fun n => (same' n).trans (same n)⟩
  · intro k inside here
    by_cases later' : later k
    · exact second.cleared k inside later'
    · have first' : now k := ((split k).mp here).resolve_right later'
      rw [second.kept k inside later', first.cleared k inside first']
  · intro k inside stays
    rw [second.kept k inside fun here => stays ((split k).mpr (.inr here)),
      first.kept k inside fun here => stays ((split k).mpr (.inl here))]
  · intro frame stillUser unmapped
    have midUser := second.role_user stillUser
    rw [second.contents frame stillUser, first.contents frame midUser]
    · intro k here
      exact unmapped k ((split k).mpr (.inl here))
    · intro k here
      rw [entries k here]
      exact unmapped k ((split k).mpr (.inr here))
  · intro frame k stillUser here mapped
    have midUser := second.role_user stillUser
    by_cases again : ∃ j, later j ∧ pteTarget (entry m' pgdir j) = some frame
    · obtain ⟨j, laterJ, mappedJ⟩ := again
      exact second.junk frame j stillUser laterJ mappedJ
    · have notLater : ¬ later k := by
        intro laterK
        rw [← entries k laterK] at mapped
        exact again ⟨k, laterK, mapped⟩
      have nowK : now k := ((split k).mp here).resolve_right notLater
      rw [second.contents frame stillUser fun j laterJ mappedJ => again ⟨j, laterJ, mappedJ⟩]
      exact first.junk frame k midUser nowK mapped

/-- The page is freed before its entry is cleared, but neither step sees the other. -/
theorem write_entry_drop (m : Mem) {table : Nat} (apart : table ≠ frame) (index : Nat) (pte : Pte) :
    writeEntry (drop m frame) table index pte = drop (writeEntry m table index pte) frame := by
  have page : (drop m frame).page table = m.page table := drop_page_other apart
  have count : (writeEntry m table index pte).refCount = m.refCount := rfl
  rw [writeEntry, page, drop, drop, count]
  split
  · simp only [writeEntry, setPage, memset, setRefCount, push]
    rw [update_comm apart.symm]
  · simp only [writeEntry, setPage, memset, setRefCount]
    rw [update_comm apart.symm]

section Freeing
variable {b : Build} {κ : Nat → Kind} {m : Mem} {pgdir : Nat}

theorem kfree_user (counting : b.original = false) (owned : Owned b κ none m)
    (dir : κ pgdir = .pgdir) (user : n < userPages) (present : has (entry m pgdir n) pteP = true) :
    kfree b m (pteFrame (entry m pgdir n)) = .ok (drop m (pteFrame (entry m pgdir n))) := by
  have role := owned.present_user dir user present
  have bounds := owned.inside _ (by rw [role]; simp)
  have used := owned.used _ role
  apply kfree_drop m _ counting bounds.1 bounds.2
  rw [owned.user_count role]
  omega

theorem released_page (owned : Owned b κ none m) {table : Nat}
    (label : κ table = .pgtab pgdir (pdx n)) (user : n < userPages)
    (present : has (entry m pgdir n) pteP = true) :
    let after := writeEntry (drop m (pteFrame (entry m pgdir n))) table (ptx n) 0
    ∃ κ', Owned b κ' none after ∧ Released pgdir (fun k => k = n) κ m κ' after := by
  intro after
  have dir := (owned.tables table pgdir (pdx n) label).1
  have role := owned.present_user dir user present
  have inside : n < vpages := user.trans_le (by decide)
  have structural {other : Nat} (part : (κ other).structural = true) :
      other ≠ pteFrame (entry m pgdir n) := by
    rintro rfl
    rw [role] at part
    contradiction
  have swap : after =
      drop (writeEntry m table (ptx n) 0) (pteFrame (entry m pgdir n)) :=
    write_entry_drop m (structural (by rw [label]; rfl)) _ _
  have target : pteTarget (entry m pgdir n) = some (pteFrame (entry m pgdir n)) := by
    rw [pteTarget, if_pos present]
  have unmapped : Owned b κ (some (pteFrame (entry m pgdir n))) (writeEntry m table (ptx n) 0) := by
    apply owned.set_user_entry label user
    · exact .inl rfl
    · rintro other ⟨⟩
      exact role
    · intro other
      rw [target]
      exact Nat.add_comm _ _
  have page {other : Nat} (notFrame : other ≠ pteFrame (entry m pgdir n))
      (notTable : other ≠ table) : after.page other = m.page other := by
    rw [swap, drop_page_other notFrame, write_entry_page _ _ _ _ _ notTable]
  have entries (other k : Nat) (isDir : κ other = .pgdir) :
      entry after other k = entry (writeEntry m table (ptx n) 0) other k := by
    rw [swap]
    apply unmapped.entry_congr isDir
    · exact drop_page_other (structural (by rw [isDir]; rfl))
    · intro its index itsLabel
      exact drop_page_other (structural (by rw [itsLabel]; rfl))
  have junk : after.page (pteFrame (entry m pgdir n)) = fun _ => 1 := by
    rw [swap, drop_page, update_self]
  have roles (frame : Nat) : PageOwnership.released κ (writeEntry m table (ptx n) 0)
      (pteFrame (entry m pgdir n)) frame = κ frame ∨
        (κ frame = .user ∧ PageOwnership.released κ (writeEntry m table (ptx n) 0)
          (pteFrame (entry m pgdir n)) frame = .free) := by
    rw [PageOwnership.released]
    split
    · by_cases same : frame = pteFrame (entry m pgdir n)
      · rw [same, update_self]
        exact .inr ⟨role, rfl⟩
      · exact .inl (update_of_ne same _ _)
    · exact .inl rfl
  refine ⟨_, by rw [swap]; exact unmapped.drop_user, roles, ?_, ?_, ?_, ?_, ?_, ?_⟩
  · exact page (structural (by rw [dir]; rfl)) (dir_ne_table dir label)
  · intro other different isDir
    refine ⟨page (structural (by rw [isDir]; rfl)) (dir_ne_table isDir label), fun k => ?_⟩
    rw [entries other k isDir]
    apply owned.entry_congr isDir
    · exact write_entry_page _ _ _ _ _ (dir_ne_table isDir label)
    · intro its index itsLabel
      apply write_entry_page
      rintro rfl
      rw [itsLabel] at label
      injection label with sameDir
      exact different sameDir
  · rintro k _ rfl
    rw [entries pgdir k dir, owned.entry_write label inside _ dir inside, if_pos ⟨rfl, rfl⟩]
  · intro k bound different
    rw [entries pgdir k dir, owned.entry_write label inside _ dir bound,
      if_neg fun both => different both.2]
  · intro frame stillUser other
    have wasUser : κ frame = .user := by
      rcases roles frame with same | ⟨user, -⟩
      · rw [← same, stillUser]
      · exact user
    apply page
    · rintro rfl
      exact other n rfl target
    · rintro rfl
      rw [label] at wasUser
      contradiction
  · rintro frame k _ rfl mapped
    rw [target] at mapped
    cases mapped
    exact junk

/-- The loop stands at the start of a page table's range or inside an existing one, so
that skipping a missing table skips its own pages only. -/
def AtTable (m : Mem) (pgdir n : Nat) : Prop := ptx n = 0 ∨ readEntry m pgdir (pdx n) ≠ 0

theorem at_table_succ (table : readEntry m pgdir (pdx n) ≠ 0) : AtTable m pgdir (n + 1) := by
  by_cases first : ptx (n + 1) = 0
  · exact .inl first
  · right
    have same : pdx (n + 1) = pdx n := by
      simp only [ptx, pdx, nptentries, npdentries] at first ⊢
      omega
    rwa [same]

theorem AtTable.congr (at' : AtTable m pgdir n) (same : m'.page pgdir = m.page pgdir) :
    AtTable m' pgdir n := by
  rw [AtTable, read_entry_congr pgdir (pdx n) same]
  exact at'

variable (counting : b.original = false)
include counting

theorem dealloc_loop_spec (owned : Owned b κ none m) (dir : κ pgdir = .pgdir) (last n : Nat)
    (top : last ≤ userPages) (start : n < last → AtTable m pgdir n) :
    ∃ κ' m', deallocLoop b pgdir last n m = .ok m' ∧ Owned b κ' none m' ∧
    Released pgdir (fun k => n ≤ k ∧ k < last) κ m κ' m' := by
  -- By induction on the pages left; the labels and the memory change in every round.
  induction left : last - n using Nat.strong_induction_on generalizing κ m n with
  | _ left ih =>
  have inSpace {k : Nat} (inside : k < last) : k < vpages :=
    inside.trans_le (top.trans (by decide))
  rw [deallocLoop]
  by_cases more : n < last
  · rw [if_pos more]
    have goOn {κ1 : Nat → Kind} {m1 : Mem} {next : Nat} (further : n < next)
        (owned1 : Owned b κ1 none m1)
        (first : Released pgdir (fun k => n ≤ k ∧ k < next ∧ k < last) κ m κ1 m1)
        (atNext : AtTable m1 pgdir next) :
        ∃ κ' m', deallocLoop b pgdir last next m1 = .ok m' ∧ Owned b κ' none m' ∧
          Released pgdir (fun k => n ≤ k ∧ k < last) κ m κ' m' := by
      have dir1 := first.label dir nofun
      obtain ⟨κ2, m2, done, owned2, second⟩ :=
        ih (last - next) (by omega) owned1 dir1 next (fun _ => atNext) rfl
      refine ⟨κ2, m2, done, owned2, first.trans second ?_ ?_ ?_⟩
      · intro k
        omega
      · intro k
        omega
      · intro k here
        exact inSpace here.2
    rcases owned.find_cases dir n with ⟨empty, missing⟩ | ⟨table, label, found⟩
    · rw [missing]
      have aligned : ptx n = 0 := (start more).resolve_right fun present => present empty
      apply goOn (by simp only [nptentries]; omega) owned
      · apply Released.none
        rintro k ⟨lower, upper, -⟩
        apply entry_of_find
        have same : pdx k = pdx n := by
          simp only [ptx, pdx, nptentries, npdentries] at aligned upper ⊢
          omega
        rw [findPte, same, empty]
        rfl
      · left
        simp only [ptx, nptentries] at aligned ⊢
        omega
    · have tableEntry : readEntry m pgdir (pdx n) ≠ 0 := by
        intro empty
        rw [findPte, empty] at found
        contradiction
      have mapped := entry_found m table (ptx n) found
      rw [found]
      simp only [← mapped]
      rcases owned.mapped pgdir n dir (more.trans_le top) with zero | ⟨present, role⟩
      · have absent : has (0 : Pte) pteP = false := by decide
        rw [zero, absent]
        simp only [Bool.false_eq_true, ↓reduceIte]
        apply goOn n.lt_succ_self owned
        · apply Released.none
          rintro k ⟨lower, upper, -⟩
          rw [show k = n by omega, zero]
        · exact at_table_succ tableEntry
      · have user := more.trans_le top
        have notNull : pteFrame (entry m pgdir n) ≠ 0 := by
          have bounds := owned.inside _ (by rw [role]; simp)
          have data := b.dataNonempty
          omega
        rw [if_pos present, if_neg notNull, kfree_user counting owned dir user present, ok_bind]
        obtain ⟨κ1, owned1, first⟩ := released_page owned label user present
        apply goOn n.lt_succ_self owned1
        · have here (k : Nat) : (n ≤ k ∧ k < n + 1 ∧ k < last) = (k = n) := by
            apply propext
            omega
          simp only [here]
          exact first
        · exact (at_table_succ tableEntry).congr first.directory
  · rw [if_neg more]
    refine ⟨κ, m, rfl, owned, Released.none ?_⟩
    rintro k ⟨lower, upper⟩
    omega

theorem deallocuvm_spec (owned : Owned b κ none m) (dir : κ pgdir = .pgdir) (oldsz newsz : Nat)
    (less : newsz < oldsz) (top : pagesUp oldsz ≤ userPages)
    (start : pagesUp newsz < pagesUp oldsz → AtTable m pgdir (pagesUp newsz)) :
    ∃ κ' m', deallocuvm b m pgdir oldsz newsz = .ok (newsz, m') ∧ Owned b κ' none m' ∧
    Released pgdir (fun k => pagesUp newsz ≤ k ∧ k < pagesUp oldsz) κ m κ' m' := by
  obtain ⟨κ', m', done, owned', released⟩ :=
    dealloc_loop_spec counting owned dir (pagesUp oldsz) (pagesUp newsz) top start
  refine ⟨κ', m', ?_, owned', released⟩
  rw [deallocuvm, if_neg (by omega), done]
  rfl

omit counting in
theorem retired_other (notDir : frame ≠ pgdir) (notTable : ∀ index, κ frame ≠ .pgtab pgdir index) :
    retired κ pgdir frame = κ frame := by
  rw [retired]
  split
  · rename_i isDir
    rw [if_neg notDir, isDir]
  · rename_i other index isTable
    have different : other ≠ pgdir := by
      rintro rfl
      exact notTable index isTable
    rw [if_neg different, isTable]
  · rfl

theorem kfree_kernel (owned : Owned b κ none m) (kernel : κ frame = .kernel) :
    kfree b m frame = .ok (drop m frame) := by
  have bounds := owned.inside frame (by simp [kernel])
  apply kfree_drop m frame counting bounds.1 bounds.2
  rw [owned.counted frame (by simp [kernel]), role_count_kernel _ (by rw [kernel]; rfl)]
  decide

/-- The loop over the directory, once its tables are ordinary pages of the kernel. -/
theorem free_tables_spec {target : Nat → Option Nat} (indexes : List Nat) (owned : Owned b κ none m)
    (read : ∀ i, pteTarget (readEntry m pgdir i) = target i)
    (once : (indexes.filterMap target).Nodup)
    (kernel : ∀ t ∈ indexes.filterMap target, κ t = .kernel ∧ t ≠ pgdir) :
    ∃ m', indexes.foldlM (freeTable b pgdir) m = .ok m' ∧
      Owned b (fun t => if t ∈ indexes.filterMap target then .free else κ t) none m' ∧
      ∀ t, t ∉ indexes.filterMap target → m'.page t = m.page t := by
  induction indexes generalizing κ m with
  | nil => exact ⟨m, rfl, by simpa using owned, fun _ _ => rfl⟩
  | cons index rest ih =>
    have entry := read index
    rw [pteTarget] at entry
    rw [List.foldlM_cons, freeTable]
    cases found : target index with
    | none =>
      rw [found] at entry
      have absent : ¬ has (readEntry m pgdir index) pteP = true := by
        intro present
        rw [if_pos present] at entry
        cases entry
      rw [List.filterMap_cons_none found] at once kernel ⊢
      simp only [if_neg absent, ok_bind]
      exact ih owned read once kernel
    | some table =>
      rw [found] at entry
      obtain ⟨present, isTable⟩ := Option.ite_none_right_eq_some.mp entry
      cases isTable
      rw [List.filterMap_cons_some found] at once kernel ⊢
      obtain ⟨isKernel, notDir⟩ := kernel _ (.head _)
      obtain ⟨fresh, onceLater⟩ := List.nodup_cons.mp once
      simp only [if_pos present, kfree_kernel counting owned isKernel, ok_bind]
      generalize pteFrame (readEntry m pgdir index) = table at *
      have others (t : Nat) (member : t ∈ rest.filterMap target) :
          update κ table .free t = .kernel ∧ t ≠ pgdir := by
        have different : t ≠ table := by
          rintro rfl
          exact fresh member
        rw [update_of_ne different]
        exact kernel t (.tail _ member)
      have still (i : Nat) : pteTarget (readEntry (drop m table) pgdir i) = target i := by
        rw [read_entry_congr pgdir i (drop_page_other notDir.symm), read i]
      obtain ⟨m', done, owned', pages⟩ := ih (owned.drop_kernel isKernel) still onceLater others
      refine ⟨m', done, ?_, ?_⟩
      · convert owned' using 2 with frame
        by_cases here : frame = table
        · simp [here]
        · simp [here]
      · intro frame outside
        rw [List.mem_cons, not_or] at outside
        rw [pages frame outside.2, drop_page_other outside.1]

/-- The directory is gone, with its page tables and its share of the user pages. -/
structure Freed (pgdir : Nat) (κ : Nat → Kind) (m : Mem) (κ' : Nat → Kind) (m' : Mem) :
    Prop where
  roles : ∀ frame, κ' frame = κ frame ∨ (κ' frame = .free ∧
    (κ frame = .user ∨ frame = pgdir ∨ ∃ index, κ frame = .pgtab pgdir index))
  gone : κ' pgdir = .free
  others : ∀ other, other ≠ pgdir → κ other = .pgdir →
    m'.page other = m.page other ∧ ∀ n, entry m' other n = entry m other n
  contents : ∀ frame, κ' frame = .user →
    (∀ k, k < userPages → pteTarget (entry m pgdir k) ≠ some frame) →
    m'.page frame = m.page frame
  junk : ∀ frame k, κ' frame = .user → k < userPages →
    pteTarget (entry m pgdir k) = some frame → m'.page frame = fun _ => 1

theorem freevm_spec (owned : Owned b κ none m) (dir : κ pgdir = .pgdir) :
    ∃ κ' m', freevm b m pgdir = .ok m' ∧ Owned b κ' none m' ∧ Freed pgdir κ m κ' m' := by
  -- The user pages.
  rcases deallocuvm_spec counting owned dir kernbase 0 (by decide) (by decide)
    (fun _ => .inl (by decide)) with ⟨κ1, m1, done1, owned1, released⟩
  rw [show pagesUp kernbase = userPages by decide, show pagesUp 0 = 0 by decide] at released
  have dir1 := released.label dir nofun
  have empty (n : Nat) (user : n < userPages) : entry m1 pgdir n = 0 :=
    released.cleared n (user.trans_le (by decide)) ⟨Nat.zero_le n, user⟩
  -- The page tables.
  have retired1 := owned1.retire empty
  have label (i : Nat) (member : i ∈ List.range npdentries) (table : Nat)
      (at' : pteTarget (readEntry m1 pgdir i) = some table) : κ1 table = .pgtab pgdir i := by
    rcases owned1.linked pgdir i dir1 (List.mem_range.mp member) with none | ⟨t, isTable, links⟩
    · rw [none] at at'
      cases at'
    · have inside : t < maxpages := owned1.bound (by simp [isTable])
      rw [links, pteTarget, if_pos (table_pte_present t), table_pte_frame inside] at at'
      cases at'
      exact isTable
  let tables := (List.range npdentries).filterMap fun i => pteTarget (readEntry m1 pgdir i)
  have isTable (table : Nat) : table ∈ tables ↔ ∃ i, κ1 table = .pgtab pgdir i := by
    rw [List.mem_filterMap]
    constructor
    · rintro ⟨i, member, at'⟩
      exact ⟨i, label i member table at'⟩
    · rintro ⟨i, isTable⟩
      obtain ⟨-, bound, links⟩ := owned1.tables table pgdir i isTable
      have inside : table < maxpages := owned1.bound (by simp [isTable])
      refine ⟨i, List.mem_range.mpr bound, ?_⟩
      rw [links, pteTarget, if_pos (table_pte_present table), table_pte_frame inside]
  have once : tables.Nodup := by
    rw [List.Nodup, List.pairwise_filterMap]
    apply List.nodup_range.imp_of_mem
    rintro i j left right different table atI _ atJ rfl
    have first := label i left table atI
    rw [label j right table atJ] at first
    injection first with _ same
    exact different same.symm
  have kernel (table : Nat) (member : table ∈ tables) :
      retired κ1 pgdir table = .kernel ∧ table ≠ pgdir := by
    obtain ⟨i, isTable⟩ := (isTable table).mp member
    exact ⟨by simp [retired, isTable], (dir_ne_table dir1 isTable).symm⟩
  obtain ⟨m2, done2, owned2, pages2⟩ :=
    free_tables_spec counting (List.range npdentries) retired1 (fun _ => rfl) once kernel
  -- The directory.
  have dir2 : (if pgdir ∈ tables then .free else retired κ1 pgdir pgdir) = Kind.kernel := by
    rw [if_neg fun member => (kernel pgdir member).2 rfl]
    simp [retired, dir1]
  have done3 := kfree_kernel counting owned2 dir2
  refine ⟨_, drop m2 pgdir, ?_, owned2.drop_kernel dir2, ?_⟩
  · rw [freevm, done1, ok_bind]
    simp only
    rw [done2, ok_bind, done3]
  generalize labels : (fun frame => if frame ∈ tables then .free else retired κ1 pgdir frame) = κ2
  have tableFreed {frame : Nat} (table : ∃ i, κ1 frame = .pgtab pgdir i) : κ2 frame = .free := by
    rw [← labels]
    exact if_pos ((isTable frame).mpr table)
  have outside {frame : Nat} (notTable : ∀ i, κ1 frame ≠ .pgtab pgdir i) : frame ∉ tables := by
    rw [isTable, not_exists]
    exact notTable
  have sameRole (frame : Nat) (notDir : frame ≠ pgdir)
      (notTable : ∀ i, κ1 frame ≠ .pgtab pgdir i) : κ2 frame = κ1 frame := by
    rw [← labels, ← retired_other notDir notTable]
    exact if_neg (outside notTable)
  have samePage (frame : Nat) (notDir : frame ≠ pgdir)
      (notTable : ∀ i, κ1 frame ≠ .pgtab pgdir i) : (drop m2 pgdir).page frame = m1.page frame := by
    rw [drop_page_other notDir, pages2 frame (outside notTable)]
  have stillUser (frame : Nat) (user : update κ2 pgdir .free frame = .user) :
      frame ≠ pgdir ∧ κ1 frame = .user := by
    have notDir : frame ≠ pgdir := by
      rintro rfl
      rw [update_self] at user
      cases user
    rw [update_of_ne notDir] at user
    have notTable (index : Nat) : κ1 frame ≠ .pgtab pgdir index := by
      intro isTable
      rw [tableFreed ⟨index, isTable⟩] at user
      cases user
    rw [sameRole frame notDir notTable] at user
    exact ⟨notDir, user⟩
  constructor
  · intro frame
    by_cases isDir : frame = pgdir
    · right
      rw [isDir, update_self]
      exact ⟨rfl, .inr (.inl rfl)⟩
    · rw [update_of_ne isDir]
      by_cases isTable : ∃ index, κ1 frame = .pgtab pgdir index
      · right
        obtain ⟨index, isTable⟩ := isTable
        refine ⟨tableFreed ⟨index, isTable⟩, .inr (.inr ⟨index, ?_⟩)⟩
        rcases released.roles frame with same | ⟨-, isFree⟩
        · rw [← same, isTable]
        · rw [isTable] at isFree
          cases isFree
      · rw [sameRole frame isDir fun index here => isTable ⟨index, here⟩]
        rcases released.roles frame with same | ⟨wasUser, isFree⟩
        · exact .inl same
        · exact .inr ⟨isFree, .inl wasUser⟩
  · exact update_self _ _ _
  · intro other different isDir
    have isDir1 := released.label isDir nofun
    obtain ⟨page1, entries1⟩ := released.others other different isDir
    have page : (drop m2 pgdir).page other = m1.page other :=
      samePage other different fun _ => by rw [isDir1]; simp
    refine ⟨page.trans page1, fun n => ?_⟩
    rw [← entries1 n]
    apply owned1.entry_congr isDir1 page
    intro table index isTable
    apply samePage table (dir_ne_table dir1 isTable).symm
    intro i same
    rw [isTable] at same
    injection same with sameDir
    exact different sameDir
  · intro frame user unmapped
    obtain ⟨notDir, user1⟩ := stillUser frame user
    rw [samePage frame notDir fun _ => by rw [user1]; simp]
    exact released.contents frame user1 fun k here => unmapped k here.2
  · intro frame k user inside mapped
    obtain ⟨notDir, user1⟩ := stillUser frame user
    rw [samePage frame notDir fun _ => by rw [user1]; simp]
    exact released.junk frame k user1 ⟨Nat.zero_le k, inside⟩ mapped

end Freeing
end Xv6Hacks.SpaceTeardown
