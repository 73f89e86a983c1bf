import Xv6Hacks.PageTableOwnership

/-!
# Building address spaces

What the functions of `vm.c` that allocate do to the labelling of pages, in the build
that counts references: `walkpgdir`, `mappages`, `setupkvm`, `allocuvm`, `inituvm`,
`copyuvm` and `cowuvm`. All of them work on one directory, turn free pages into pages of
that directory, and leave every other directory and the contents of every user page
alone. They stop when the free list is empty, and the lemmas say how many free pages are
enough.
-/

namespace Xv6Hacks.SpaceGrowth

open AddressSpace ByteBuffers Function Kalloc Outcomes PageOwnership PageTables

variable {pgdir index frame n : Nat} {κ κ' : Nat → Kind} {m m' : Mem} {b : Build}
  {hand : Option Nat} {indexes : Finset Nat} {perm : Pte}

structure Grows (pgdir : Nat) (κ : Nat → Kind) (m : Mem) (κ' : Nat → Kind) (m' : Mem) :
    Prop where
  kinds : ∀ frame, κ frame ≠ .free → κ' frame = κ frame
  fresh : ∀ frame, κ frame = .free → κ' frame = .free ∨ κ' frame = .user ∨
    (∃ index, κ' frame = .pgtab pgdir index) ∨ (frame = pgdir ∧ κ' frame = .pgdir)
  others : ∀ other, other ≠ pgdir → κ other = .pgdir →
    m'.page other = m.page other ∧ ∀ n, entry m' other n = entry m other n
  contents : ∀ frame, κ frame = .user → m'.page frame = m.page frame
  kept : κ pgdir = .pgdir → ∀ index, readEntry m pgdir index ≠ 0 → readEntry m' pgdir index ≠ 0

theorem Grows.label {pgdir frame : Nat} {κ κ' : Nat → Kind} {m m' : Mem} {kind : Kind}
    (grows : Grows pgdir κ m κ' m') (label : κ frame = kind) (used : kind ≠ .free) :
    κ' frame = kind := by
  rw [← label] at used ⊢
  exact grows.kinds frame used

theorem Grows.refl (pgdir : Nat) (κ : Nat → Kind) (m : Mem) : Grows pgdir κ m κ m where
  kinds := fun _ _ => rfl
  fresh := fun _ free => .inl free
  others := fun _ _ _ => ⟨rfl, fun _ => rfl⟩
  contents := fun _ _ => rfl
  kept := fun _ _ present => present

theorem Grows.trans {κ'' : Nat → Kind} {m'' : Mem} (first : Grows pgdir κ m κ' m')
    (second : Grows pgdir κ' m' κ'' m'') : Grows pgdir κ m κ'' m'' := by
  constructor
  · intro frame used
    have same := first.kinds frame used
    rw [second.kinds frame (by rwa [same]), same]
  · intro frame free
    rcases first.fresh frame free with still | user | ⟨index, table⟩ | ⟨rfl, dir⟩
    · exact second.fresh frame still
    · right; left
      rw [second.kinds frame (by simp [user]), user]
    · right; right; left
      exact ⟨index, second.label table nofun⟩
    · right; right; right
      exact ⟨rfl, second.label dir nofun⟩
  · intro other different dir
    have still := first.label dir nofun
    obtain ⟨page, entries⟩ := first.others other different dir
    obtain ⟨page', entries'⟩ := second.others other different still
    exact ⟨page'.trans page, fun n => (entries' n).trans (entries n)⟩
  · intro frame user
    have still := first.label user nofun
    rw [second.contents frame still, first.contents frame user]
  · intro dir index present
    have still := first.label dir nofun
    exact second.kept still index (first.kept dir index present)

theorem grows_write_entry (owned : Owned b κ hand m) {table : Nat}
    (label : κ table = .pgtab pgdir index) (slot : Nat) (pte : Pte) :
    Grows pgdir κ m κ (writeEntry m table slot pte) := by
  have page (other : Nat) (different : other ≠ table) :
      (writeEntry m table slot pte).page other = m.page other :=
    write_entry_page m table slot pte other different
  constructor
  · exact fun _ _ => rfl
  · exact fun _ free => .inl free
  · intro other different dir
    refine ⟨page other (dir_ne_table dir label), fun n => ?_⟩
    apply owned.entry_congr dir (page other (dir_ne_table dir label))
    intro its j itsLabel
    apply page
    rintro rfl
    rw [itsLabel] at label
    injection label with sameDir
    exact different sameDir
  · intro frame user
    apply page
    rintro rfl
    rw [user] at label
    contradiction
  · intro dir j present
    rwa [read_entry_congr pgdir j (page pgdir (dir_ne_table dir label))]

theorem Grows.set_page (grows : Grows pgdir κ m κ' m') (owned : Owned b κ' hand m')
    (fresh : κ frame ≠ .user) (plain : (κ' frame).structural = false) (content : Buffer) :
    Grows pgdir κ m κ' (setPage m' frame content) := by
  have stillDir (other : Nat) (dir : κ other = .pgdir) : κ' other = .pgdir := by
    rw [grows.kinds other (by simp [dir]), dir]
  have page (other : Nat) (dir : κ' other = .pgdir) :
      (setPage m' frame content).page other = m'.page other := by
    apply set_page_other
    rintro rfl
    rw [dir] at plain
    contradiction
  constructor
  · exact grows.kinds
  · exact grows.fresh
  · intro other different dir
    obtain ⟨samePage, sameEntry⟩ := grows.others other different dir
    constructor
    · rw [page other (stillDir other dir), samePage]
    · intro n
      rw [owned.entry_set_page plain content (stillDir other dir), sameEntry]
  · intro other user
    have different : other ≠ frame := by
      rintro rfl
      exact fresh user
    rw [set_page_other _ _ _ _ different, grows.contents other user]
  · intro dir index present
    rw [read_entry_congr pgdir index (page pgdir (stillDir pgdir dir))]
    exact grows.kept dir index present

theorem grows_take (owned : Owned b κ hand m) {rest : List Nat} (list : m.freelist = frame :: rest)
    {kind : Kind} (role : kind = .user ∨ (frame = pgdir ∧ kind = .pgdir)) (content : Buffer) :
    Grows pgdir κ m (update κ frame kind) (setPage (pop m frame rest) frame content) := by
  have wasFree := owned.head_free list
  have apart (other : Nat) (used : κ other ≠ .free) : other ≠ frame := by
    rintro rfl
    exact used wasFree
  have page (other : Nat) (used : κ other ≠ .free) :
      (setPage (pop m frame rest) frame content).page other = m.page other :=
    set_page_other _ _ _ _ (apart other used)
  constructor
  · intro other used
    exact update_of_ne (apart other used) _ _
  · intro other free
    by_cases same : other = frame
    · rw [same, update_self]
      rcases role with user | dir
      · exact .inr (.inl user)
      · exact .inr (.inr (.inr dir))
    · left
      rw [update_of_ne same, free]
  · intro other _ dir
    have samePage := page other (by simp [dir])
    refine ⟨samePage, owned.entry_congr dir samePage ?_⟩
    intro table index label
    exact page table (by simp [label])
  · intro other user
    exact page other (by simp [user])
  · intro dir index present
    rwa [read_entry_congr pgdir index (page pgdir (by simp [dir]))]

def missing (m : Mem) (pgdir : Nat) (indexes : Finset Nat) : Nat :=
  (indexes.filter fun index => readEntry m pgdir index = 0).card

/-- One step of building: the invariant, what changed, and what it cost. -/
structure Step (b : Build) (hand : Option Nat) (pgdir : Nat) (indexes : Finset Nat)
    (κ : Nat → Kind) (m : Mem) (κ' : Nat → Kind) (m' : Mem) : Prop where
  owned : Owned b κ' hand m'
  grows : Grows pgdir κ m κ' m'
  cost : m'.freelist.length + missing m pgdir indexes =
    m.freelist.length + missing m' pgdir indexes

theorem missing_pos (member : index ∈ indexes) (empty : readEntry m pgdir index = 0) :
    0 < missing m pgdir indexes :=
  Finset.card_pos.mpr ⟨index, Finset.mem_filter.mpr ⟨member, empty⟩⟩

theorem missing_fill {after : Mem} (member : index ∈ indexes) (empty : readEntry m pgdir index = 0)
    (filled : readEntry after pgdir index ≠ 0)
    (same : ∀ other, other ≠ index → readEntry after pgdir other = readEntry m pgdir other) :
    missing m pgdir indexes = missing after pgdir indexes + 1 := by
  have split : indexes.filter (fun i => readEntry m pgdir i = 0) =
      insert index (indexes.filter fun i => readEntry after pgdir i = 0) := by
    ext i
    rw [Finset.mem_insert, Finset.mem_filter, Finset.mem_filter]
    by_cases here : i = index
    · simp [here, member, empty]
    · simp [here, same i here]
  rw [missing, missing, split, Finset.card_insert_of_notMem]
  rw [Finset.mem_filter]
  exact fun both => filled both.2

theorem missing_le (m : Mem) (pgdir : Nat) (indexes : Finset Nat) :
    missing m pgdir indexes ≤ indexes.card := Finset.card_filter_le _ _

theorem Step.trans {hand' : Option Nat} {κ'' : Nat → Kind} {m'' : Mem}
    (first : Step b hand pgdir indexes κ m κ' m')
    (second : Step b hand' pgdir indexes κ' m' κ'' m'') :
    Step b hand' pgdir indexes κ m κ'' m'' := by
  refine ⟨second.owned, first.grows.trans second.grows, ?_⟩
  have costs := first.cost
  have more := second.cost
  omega

theorem step_write_entry {hand' : Option Nat} (owned : Owned b κ hand m) {table : Nat}
    (label : κ table = .pgtab pgdir index) (indexes : Finset Nat) {slot : Nat} {pte : Pte}
    (after : Owned b κ hand' (writeEntry m table slot pte)) :
    Step b hand' pgdir indexes κ m κ (writeEntry m table slot pte) := by
  refine ⟨after, grows_write_entry owned label slot pte, ?_⟩
  have dir := (owned.tables table pgdir index label).1
  have same : missing (writeEntry m table slot pte) pgdir indexes = missing m pgdir indexes := by
    simp only [missing, read_write_entry_table _ _ _ _ _ _ (dir_ne_table dir label)]
  rw [same]
  rfl

section Walking
variable {b : Build} {κ : Nat → Kind} {hand : Option Nat} {m : Mem} {pgdir : Nat}

theorem link_new_table (owned : Owned b κ hand m) (dir : κ pgdir = .pgdir) {rest : List Nat}
    (list : m.freelist = frame :: rest) (empty : readEntry m pgdir (pdx n) = 0)
    (member : pdx n ∈ indexes) :
    let after := writeEntry (memset (pop m frame rest) frame 0) pgdir (pdx n) (tablePte frame)
    let κ' := update κ frame (.pgtab pgdir (pdx n))
    Step b hand pgdir indexes κ m κ' after ∧
      ∀ other k, κ other = .pgdir → entry after other k = entry m other k := by
  intro after κ'
  have wasFree := owned.head_free list
  have apart (other : Nat) (used : κ other ≠ .free) : other ≠ frame := by
    rintro rfl
    exact used wasFree
  have notDir : pgdir ≠ frame := apart pgdir (by simp [dir])
  have taken : Owned b (update κ frame .kernel) hand (pop m frame rest) :=
    owned.take list (.inl ⟨rfl, rfl⟩)
  have kernel : update κ frame .kernel frame = .kernel := update_self _ _ _
  have zeroed : Owned b (update κ frame .kernel) hand (memset (pop m frame rest) frame 0) :=
    taken.set_page (by rw [kernel]; rfl) _
  have samePage (other : Nat) (different : other ≠ frame) :
      (memset (pop m frame rest) frame 0).page other = m.page other :=
    set_page_other _ _ _ _ different
  have sameRead (index : Nat) :
      readEntry (memset (pop m frame rest) frame 0) pgdir index = readEntry m pgdir index :=
    read_entry_congr pgdir index (samePage pgdir notDir)
  have stillDir (other : Nat) (isDir : κ other = .pgdir) :
      update κ frame .kernel other = .pgdir := by
    rw [update_of_ne (apart other (by simp [isDir])), isDir]
  have zero : (memset (pop m frame rest) frame 0).page frame = fun _ => 0 := set_page_same _ _ _
  have stillEmpty : readEntry (memset (pop m frame rest) frame 0) pgdir (pdx n) = 0 := by
    rw [sameRead, empty]
  have linked := zeroed.link_table kernel zero (stillDir pgdir dir) (pdx_lt n) stillEmpty
  rw [update_idem] at linked
  have entries (other k : Nat) (isDir : κ other = .pgdir) :
      entry after other k = entry m other k := by
    rw [zeroed.link_entry kernel zero (stillDir pgdir dir) stillEmpty (stillDir other isDir) k]
    apply owned.entry_congr isDir
    · exact samePage other (apart other (by simp [isDir]))
    · intro table index label
      exact samePage table (apart table (by simp [label]))
  have readOther (index : Nat) (different : index ≠ pdx n) :
      readEntry after pgdir index = readEntry m pgdir index := by
    rw [read_write_entry_index _ _ _ _ _ different, sameRead]
  have filled : readEntry after pgdir (pdx n) ≠ 0 := by
    intro none
    have present := table_pte_present frame
    rw [← read_write_entry (memset (pop m frame rest) frame 0) pgdir (pdx n) (tablePte frame),
      none] at present
    contradiction
  refine ⟨⟨linked, ⟨?_, ?_, ?_, ?_, ?_⟩, ?_⟩, entries⟩
  · intro other used
    exact update_of_ne (apart other used) _ _
  · intro other free
    by_cases same : other = frame
    · right; right; left
      exact ⟨pdx n, by rw [same]; exact update_self _ _ _⟩
    · left
      rw [← free]
      exact update_of_ne same _ _
  · intro other different isDir
    refine ⟨?_, fun k => entries other k isDir⟩
    rw [write_entry_page _ _ _ _ _ different]
    exact samePage other (apart other (by simp [isDir]))
  · intro other user
    have different : other ≠ pgdir := label_ne user dir nofun
    rw [write_entry_page _ _ _ _ _ different]
    exact samePage other (apart other (by simp [user]))
  · intro _ index present
    by_cases same : index = pdx n
    · exact absurd empty (same ▸ present)
    · rwa [readOther index same]
  · have cost := missing_fill member empty filled readOther
    have length : m.freelist.length = after.freelist.length + 1 := by
      rw [list]
      rfl
    omega

variable (counting : b.original = false) (strict : b.kallocNull = false)
include counting strict

theorem kalloc_spec (m : Mem) : Yields (kalloc b m)
    (fun result => ∃ frame rest, m.freelist = frame :: rest ∧
    result = (some frame, pop m frame rest)) (fun stop => stop = .nullRun ∧ m.freelist = []) := by
  cases list : m.freelist with
  | nil =>
    have stopped : kalloc b m = .error .nullRun := by
      simp only [kalloc, list, strict, Bool.false_eq_true, ↓reduceIte]
    rw [stopped]
    exact ⟨rfl, rfl⟩
  | cons frame rest =>
    rw [kalloc_cons m frame counting list]
    exact ⟨frame, rest, rfl, rfl⟩

theorem walkpgdir_spec (owned : Owned b κ hand m) (dir : κ pgdir = .pgdir) (n : Nat)
    (member : pdx n ∈ indexes) : Yields (walkpgdir b m pgdir n)
    (fun result => ∃ κ' table, result.1 = some (table, ptx n) ∧
    κ' table = .pgtab pgdir (pdx n) ∧ Step b hand pgdir indexes κ m κ' result.2 ∧
    ∀ k, entry result.2 pgdir k = entry m pgdir k)
    (fun stop => stop = .nullRun ∧ m.freelist.length < missing m pgdir indexes) := by
  rcases owned.find_cases dir n with ⟨empty, absent⟩ | ⟨table, label, found⟩
  · simp only [walkpgdir, absent]
    apply (kalloc_spec counting strict m).seq
    · rintro stop ⟨rfl, none⟩
      refine ⟨rfl, ?_⟩
      rw [none]
      exact missing_pos member empty
    · rintro result ⟨frame, rest, list, rfl⟩
      have step := link_new_table owned dir list empty member
      exact ⟨_, frame, rfl, update_self _ _ _, step.1, fun k => step.2 pgdir k dir⟩
  · simp only [walkpgdir, found]
    exact ⟨κ, table, rfl, label, ⟨owned, Grows.refl _ _ _, rfl⟩, fun _ => rfl⟩

end Walking

section Mapping
variable {b : Build} {κ : Nat → Kind} {hand : Option Nat} {m : Mem} {pgdir : Nat}
variable (counting : b.original = false) (strict : b.kallocNull = false)
include counting strict

theorem map_first_page (owned : Owned b κ hand m) (dir : κ pgdir = .pgdir) (frame : Nat)
    (perm : Pte) (member : pdx n ∈ indexes) (absent : entry m pgdir n = 0) (count : Nat)
    {final : Bool × Mem → Prop} {stops : Stop → Prop}
    (full : m.freelist.length < missing m pgdir indexes → stops .nullRun)
    (rest : ∀ κ' table walked, Step b hand pgdir indexes κ m κ' walked →
    κ' table = .pgtab pgdir (pdx n) → (∀ k, entry walked pgdir k = entry m pgdir k) →
    Yields (mapLoop b pgdir perm count ((n + 1) % vpages) (frame + 1)
    (writeEntry walked table (ptx n) (makePte frame perm))) final stops) :
    Yields (mapLoop b pgdir perm (count + 1) n frame m) final stops := by
  rw [mapLoop]
  apply (walkpgdir_spec counting strict owned dir n member).seq
  · rintro stop ⟨rfl, short⟩
    exact full short
  · rintro ⟨slot, walked⟩ ⟨κ', table, found, label, step, entries⟩
    simp only at found step entries
    subst found
    have still : readEntry walked table (ptx n) = 0 := by
      rw [← entry_found walked _ _ (step.owned.find_table label), entries n, absent]
    have unset : has (0 : Pte) pteP = false := by decide
    simp only [still, unset, Bool.false_eq_true, ↓reduceIte]
    exact rest κ' table walked step label entries

def MappedKernel (b : Build) (hand : Option Nat) (pgdir : Nat) (indexes : Finset Nat)
    (κ : Nat → Kind) (m : Mem) (n count frame : Nat) (perm : Pte) (result : Bool × Mem) : Prop :=
  result.1 = true ∧ ∃ κ', Step b hand pgdir indexes κ m κ' result.2 ∧
    ∀ k, k < vpages → entry result.2 pgdir k =
      if n ≤ k ∧ k < n + count then makePte (frame + (k - n)) perm else entry m pgdir k

theorem map_kernel_pages (owned : Owned b κ hand m) (dir : κ pgdir = .pgdir) (perm : Pte)
    (indexes : Finset Nat) (count n frame : Nat) (kernel : userPages ≤ n) (top : n + count ≤ vpages)
    (members : ∀ k, n ≤ k → k < n + count → pdx k ∈ indexes)
    (absent : ∀ k, n ≤ k → k < n + count → entry m pgdir k = 0) :
    Yields (mapLoop b pgdir perm count n frame m)
    (MappedKernel b hand pgdir indexes κ m n count frame perm)
    (fun stop => stop = .nullRun ∧ m.freelist.length < missing m pgdir indexes) := by
  -- By induction on the pages left; each round maps the first of them.
  induction count generalizing κ m n frame with
  | zero =>
    refine ⟨rfl, κ, ⟨owned, Grows.refl _ _ _, rfl⟩, fun k _ => ?_⟩
    rw [if_neg (by omega)]
  | succ count ih =>
    apply map_first_page counting strict owned dir frame perm
      (members n (by omega) (by omega)) (absent n (by omega) (by omega))
    · exact fun short => ⟨rfl, short⟩
    · intro κ' table walked walk label entries
      have dir' : κ' pgdir = .pgdir := by
        rw [walk.grows.kinds pgdir (by simp [dir]), dir]
      have inRange : n < vpages := by omega
      have step := walk.trans (step_write_entry walk.owned label indexes
        (walk.owned.set_kernel_entry label inRange kernel (makePte frame perm)))
      have written (k : Nat) (inside : k < vpages) :
          entry (writeEntry walked table (ptx n) (makePte frame perm)) pgdir k =
            if k = n then makePte frame perm else entry m pgdir k := by
        rw [walk.owned.entry_write label inRange _ dir' inside, entries]
        simp
      have next : mapLoop b pgdir perm count ((n + 1) % vpages) (frame + 1)
          (writeEntry walked table (ptx n) (makePte frame perm)) =
            mapLoop b pgdir perm count (n + 1) (frame + 1)
              (writeEntry walked table (ptx n) (makePte frame perm)) := by
        cases count with
        | zero => rfl
        | succ count => rw [Nat.mod_eq_of_lt (by omega)]
      rw [next]
      refine (ih step.owned dir' (n + 1) (frame + 1) (by omega) (by omega) ?_ ?_).mono ?_ ?_
      · intro k lower upper
        exact members k (by omega) (by omega)
      · intro k lower upper
        rw [written k (by omega), if_neg (by omega)]
        exact absent k (by omega) (by omega)
      · rintro result ⟨done, κ'', more, mapped⟩
        refine ⟨done, κ'', step.trans more, fun k inside => ?_⟩
        rw [mapped k inside, written k inside]
        by_cases first : k = n
        · subst first
          rw [if_neg (by omega), if_pos rfl, if_pos (by omega), Nat.sub_self]
          rfl
        · rw [if_neg first]
          by_cases later : n + 1 ≤ k ∧ k < n + 1 + count
          · rw [if_pos later, if_pos (by omega), show frame + 1 + (k - (n + 1)) = frame + (k - n) by omega]
          · rw [if_neg later, if_neg (by omega)]
      · rintro stop ⟨rfl, short⟩
        refine ⟨rfl, ?_⟩
        have cost := step.cost
        omega

theorem map_row (owned : Owned b κ hand m) (dir : κ pgdir = .pgdir) {row : Kmap} {rows : List Kmap}
    (first count frame : Nat) (virt : row.virt = first * pgsize)
    (size : (row.physEnd + 2 ^ 32 - row.physStart) % 2 ^ 32 = count * pgsize)
    (phys : row.physStart = frame * pgsize) (nonempty : 0 < count) (kernel : userPages ≤ first)
    (top : first + count ≤ vpages) (members : ∀ k, first ≤ k → k < first + count → pdx k ∈ indexes)
    (absent : ∀ k, first ≤ k → k < first + count → entry m pgdir k = 0) {final : Bool × Mem → Prop}
    {stops : Stop → Prop} (full : m.freelist.length < missing m pgdir indexes → stops .nullRun)
    (rest : ∀ κ' after, Step b hand pgdir indexes κ m κ' after →
      (∀ k, k < vpages → entry after pgdir k =
        if first ≤ k ∧ k < first + count then makePte (frame + (k - first)) row.perm
        else entry m pgdir k) → Yields (mapRows b pgdir rows after) final stops) :
    Yields (mapRows b pgdir (row :: rows) m) final stops := by
  simp only [mapRows, size]
  rw [virt, phys, mappages_eq b m pgdir first count frame row.perm nonempty top]
  apply (map_kernel_pages counting strict owned dir row.perm indexes count first frame kernel top
    members absent).seq
  · rintro stop ⟨rfl, short⟩
    exact full short
  · rintro ⟨done, after⟩ ⟨rfl, κ', step, entries⟩
    exact rest κ' after step entries

/-- The directory entries of the kernel: 256 megabytes from `KERNBASE` and the devices. -/
def kernelIndexes : Finset Nat := Finset.Ico 512 568 ∪ Finset.Ico 1016 1024

omit counting strict in
theorem mem_kernel_indexes {k : Nat}
    (range : (524288 ≤ k ∧ k < 581632) ∨ (1040384 ≤ k ∧ k < 1048576)) : pdx k ∈ kernelIndexes := by
  rw [kernelIndexes, Finset.mem_union, Finset.mem_Ico, Finset.mem_Ico]
  simp only [pdx, nptentries, npdentries]
  omega

omit counting strict in
theorem kernel_indexes_card : kernelIndexes.card ≤ 64 :=
  (Finset.card_union_le _ _).trans (by simp)

/-- The kernel part of an address space: physical memory from `data` on, and no user page. -/
def KernelMapped (b : Build) (m : Mem) (pgdir : Nat) : Prop :=
  (∀ n, n < userPages → entry m pgdir n = 0) ∧
    ∀ frame, b.dataFrame ≤ frame → frame < maxpages →
      entry m pgdir (userPages + frame) = makePte frame pteW

def KernelOnly (m : Mem) (pgdir : Nat) : Prop :=
  ∀ n, userPages ≤ n → n < vpages → has (entry m pgdir n) pteU = false

omit counting strict in
theorem make_pte_closed (closed : perm.getLsbD 2 = false) :
    has (makePte frame perm) pteU = false := by
  rw [has_user, make_pte_bit 2 (by decide), closed]
  rfl

theorem map_rows_spec (owned : Owned b κ hand m) (dir : κ pgdir = .pgdir)
    (empty : ∀ k, entry m pgdir k = 0) : Yields (mapRows b pgdir (kmap b) m)
    (fun result => result.1 = true ∧ (∃ κ', Step b hand pgdir kernelIndexes κ m κ' result.2) ∧
    KernelMapped b result.2 pgdir ∧ KernelOnly result.2 pgdir)
    (fun stop => stop = .nullRun ∧ m.freelist.length < missing m pgdir kernelIndexes) := by
  have text := b.textNonempty
  have data := b.dataNonempty
  have low := b.endMapped
  simp only [extmem, pgsize] at text
  have inSpace {k : Nat} (below : k < 1048576) : k < vpages := by
    rw [vpages_value]
    exact below
  have inKernel {k : Nat} (above : 524288 ≤ k) : userPages ≤ k := by
    rw [user_pages_value]
    exact above
  rw [kmap]
  apply map_row counting strict owned dir 524288 256 0
  · decide
  · decide
  · decide
  · decide
  · exact inKernel (by omega)
  · decide
  · exact fun k lower upper => mem_kernel_indexes (by omega)
  · exact fun k _ _ => empty k
  · exact fun short => ⟨rfl, short⟩
  intro κ1 m1 step1 entries1
  have dir1 := step1.grows.label dir (by simp)
  apply map_row counting strict step1.owned dir1 524544 (b.dataFrame - 256) 256
  · simp only [kernlink, kernbase, extmem, pgsize]
  · simp only [extmem, pgsize]
    omega
  · simp only [extmem, pgsize]
  · omega
  · exact inKernel (by omega)
  · rw [vpages_value]
    omega
  · exact fun k lower upper => mem_kernel_indexes (by omega)
  · intro k lower upper
    rw [entries1 k (inSpace (by omega)), if_neg (by omega), empty]
  · intro short
    have cost := step1.cost
    exact ⟨rfl, by omega⟩
  intro κ2 m2 second entries2
  have step2 := step1.trans second
  have dir2 := step2.grows.label dir (by simp)
  apply map_row counting strict step2.owned dir2 (524288 + b.dataFrame) (57344 - b.dataFrame)
    b.dataFrame
  · unfold p2v
    simp only [kernbase, pgsize]
    omega
  · simp only [phystop, pgsize]
    omega
  · rfl
  · omega
  · exact inKernel (by omega)
  · rw [vpages_value]
    omega
  · exact fun k lower upper => mem_kernel_indexes (by omega)
  · intro k lower upper
    rw [entries2 k (inSpace (by omega)), if_neg (by omega), entries1 k (inSpace (by omega)),
      if_neg (by omega), empty]
  · intro short
    have cost := step2.cost
    exact ⟨rfl, by omega⟩
  intro κ3 m3 third entries3
  have step3 := step2.trans third
  have dir3 := step3.grows.label dir (by simp)
  apply map_row counting strict step3.owned dir3 1040384 8192 1040384
  · decide
  · decide
  · decide
  · decide
  · exact inKernel (by omega)
  · decide
  · exact fun k lower upper => mem_kernel_indexes (by omega)
  · intro k lower upper
    rw [entries3 k (inSpace (by omega)), if_neg (by omega), entries2 k (inSpace (by omega)),
      if_neg (by omega), entries1 k (inSpace (by omega)), if_neg (by omega), empty]
  · intro short
    have cost := step3.cost
    exact ⟨rfl, by omega⟩
  intro κ4 m4 fourth entries4
  refine ⟨rfl, ⟨κ4, step3.trans fourth⟩, ⟨?_, ?_⟩, ?_⟩
  · intro n user
    rw [user_pages_value] at user
    rw [entries4 n (inSpace (by omega)), if_neg (by omega), entries3 n (inSpace (by omega)),
      if_neg (by omega), entries2 n (inSpace (by omega)), if_neg (by omega),
      entries1 n (inSpace (by omega)), if_neg (by omega), empty]
  · intro frame lower upper
    rw [maxpages_value] at upper
    rw [user_pages_value, entries4 _ (inSpace (by omega)), if_neg (by omega),
      entries3 _ (inSpace (by omega)), if_pos (by omega)]
    congr 1
    omega
  · intro n _ inside
    have writable : pteW.getLsbD 2 = false := by decide
    rw [entries4 n inside]
    split
    · exact make_pte_closed writable
    rw [entries3 n inside]
    split
    · exact make_pte_closed writable
    rw [entries2 n inside]
    split
    · exact make_pte_closed (by decide : (0 : Pte).getLsbD 2 = false)
    rw [entries1 n inside]
    split
    · exact make_pte_closed writable
    · rw [empty]
      rfl

theorem setupkvm_spec (owned : Owned b κ hand m) : Yields (setupkvm b m)
    (fun result => ∃ d κ', result.1 = some d ∧ κ d = .free ∧ κ' d = .pgdir ∧
    Owned b κ' hand result.2 ∧ Grows d κ m κ' result.2 ∧ KernelMapped b result.2 d ∧
    KernelOnly result.2 d ∧ m.freelist.length ≤ result.2.freelist.length + 65)
    (fun stop => stop = .nullRun ∧ m.freelist.length < 65) := by
  have few (memory : Mem) (d : Nat) : missing memory d kernelIndexes ≤ 64 :=
    (missing_le memory d kernelIndexes).trans kernel_indexes_card
  rw [setupkvm]
  apply (kalloc_spec counting strict m).seq
  · rintro stop ⟨rfl, none⟩
    refine ⟨rfl, ?_⟩
    rw [none]
    decide
  rintro result ⟨d, rest, list, rfl⟩
  have wasFree := owned.head_free list
  have length : m.freelist.length = rest.length + 1 := by rw [list]; rfl
  have kernel : update κ d .kernel d = .kernel := update_self _ _ _
  have taken : Owned b (update κ d .kernel) hand (pop m d rest) := owned.take list (.inl ⟨rfl, rfl⟩)
  have zeroed : Owned b (update κ d .kernel) hand (memset (pop m d rest) d 0) :=
    taken.set_page (by rw [kernel]; rfl) _
  have zero : (memset (pop m d rest) d 0).page d = fun _ => 0 := set_page_same _ _ _
  have made := zeroed.new_dir kernel zero
  rw [update_idem] at made
  have dir : update κ d .pgdir d = .pgdir := update_self _ _ _
  have empty (k : Nat) : entry (memset (pop m d rest) d 0) d k = 0 := by
    apply entry_of_find
    rw [findPte, read_zero_page _ _ _ zero]
    rfl
  have grows : Grows d κ m (update κ d .pgdir) (memset (pop m d rest) d 0) :=
    grows_take owned list (.inr ⟨rfl, rfl⟩) _
  apply (map_rows_spec counting strict made dir empty).seq
  · rintro stop ⟨rfl, short⟩
    refine ⟨rfl, ?_⟩
    have bound := few (memset (pop m d rest) d 0) d
    have same : (memset (pop m d rest) d 0).freelist.length = rest.length := rfl
    omega
  · rintro ⟨done, after⟩ ⟨rfl, ⟨κ', step⟩, mapped, closed⟩
    refine ⟨d, κ', rfl, wasFree, ?_, step.owned, grows.trans step.grows, mapped, closed, ?_⟩
    · exact step.grows.label dir (by simp)
    · have cost : after.freelist.length + missing (memset (pop m d rest) d 0) d kernelIndexes =
          rest.length + missing after d kernelIndexes := step.cost
      have bound := few (memset (pop m d rest) d 0) d
      simp only
      omega

end Mapping

theorem Grows.was_free (grows : Grows pgdir κ m κ' m') (free : κ' frame = .free) :
    κ frame = .free := by
  by_contra used
  rw [grows.kinds frame used] at free
  exact used free

theorem pte_target_zero : pteTarget 0 = none := rfl

theorem pte_target_make (inside : frame < maxpages) (flags : perm.toNat < pgsize) :
    pteTarget (makePte frame perm) = some frame := by
  rw [pteTarget, if_pos make_pte_present, make_pte_frame (frame_in_space inside) flags]

theorem pde_of_entry (present : entry m pgdir n ≠ 0) : readEntry m pgdir (pdx n) ≠ 0 := by
  intro empty
  apply present
  apply entry_of_find
  rw [findPte, empty]
  rfl

section Users
variable {b : Build} {κ : Nat → Kind} {m : Mem} {pgdir : Nat}
variable (counting : b.original = false) (strict : b.kallocNull = false)
include counting strict

theorem map_user_page (owned : Owned b κ (some frame) m) (dir : κ pgdir = .pgdir)
    (user : n < userPages) (flags : perm.toNat < pgsize) (absent : entry m pgdir n = 0) :
    Yields (mapPage b m pgdir n frame perm)
      (fun result => result.1 = true ∧ ∃ κ', Owned b κ' none result.2 ∧
        Grows pgdir κ m κ' result.2 ∧ (∀ k, k < vpages → entry result.2 pgdir k =
          if k = n then makePte frame perm else entry m pgdir k) ∧
        m.freelist.length ≤ result.2.freelist.length + 1)
      (fun stop => stop = .nullRun ∧ m.freelist = []) := by
  have inRange : n < vpages := by
    rw [user_pages_value] at user
    rw [vpages_value]
    omega
  rw [map_page_eq b m pgdir n frame perm inRange]
  apply map_first_page counting strict owned dir frame perm (Finset.mem_singleton_self (pdx n))
    absent
  · intro short
    have one := missing_le m pgdir {pdx n}
    rw [Finset.card_singleton] at one
    exact ⟨rfl, List.length_eq_zero_iff.mp (by omega)⟩
  · intro κ' table walked walk label entries
    have held := walk.owned.held frame rfl
    have inside : frame < maxpages := walk.owned.bound (by simp [held])
    have dir' : κ' pgdir = .pgdir := by
      rw [walk.grows.kinds pgdir (by simp [dir]), dir]
    have target := pte_target_make inside flags
    have after : Owned b κ' none (writeEntry walked table (ptx n) (makePte frame perm)) := by
      apply walk.owned.set_user_entry label user
      · right
        rw [make_pte_frame (frame_in_space inside) flags]
        exact ⟨make_pte_present, held⟩
      · rintro other ⟨⟩
      · intro other
        rw [target, entries n, absent, pte_target_zero]
        exact Nat.add_comm _ _
    refine ⟨rfl, κ', after, ?_, ?_, ?_⟩
    · exact walk.grows.trans (grows_write_entry walk.owned label _ _)
    · intro k inside
      simp only
      rw [walk.owned.entry_write label inRange _ dir' inside, entries]
      simp
    · have cost := walk.cost
      have one := missing_le m pgdir {pdx n}
      rw [Finset.card_singleton] at one
      simp only [write_entry_freelist]
      omega

theorem new_user_page (owned : Owned b κ none m) (dir : κ pgdir = .pgdir) {rest : List Nat}
    (list : m.freelist = frame :: rest) (content : Buffer) (user : n < userPages)
    (flags : perm.toNat < pgsize) (absent : entry m pgdir n = 0) :
    Yields (mapPage b (setPage (pop m frame rest) frame content) pgdir n frame perm)
      (fun result => result.1 = true ∧ ∃ κ', Owned b κ' none result.2 ∧
        Grows pgdir κ m κ' result.2 ∧ κ frame = .free ∧ κ' frame = .user ∧
        result.2.page frame = content ∧ (∀ k, k < vpages → entry result.2 pgdir k =
          if k = n then makePte frame perm else entry m pgdir k) ∧
        m.freelist.length ≤ result.2.freelist.length + 2)
      (fun stop => stop = .nullRun ∧ m.freelist.length < 2) := by
  have wasFree := owned.head_free list
  have isUser : update κ frame .user frame = .user := update_self _ _ _
  have notFrame : pgdir ≠ frame := label_ne dir wasFree nofun
  have dir' : update κ frame .user pgdir = .pgdir := by
    rw [update_of_ne notFrame, dir]
  have taken : Owned b (update κ frame .user) (some frame) (pop m frame rest) :=
    owned.take list (.inr ⟨rfl, rfl, rfl⟩)
  have filled := taken.set_page (by rw [isUser]; rfl) content
  have grows : Grows pgdir κ m _ (setPage (pop m frame rest) frame content) :=
    grows_take owned list (.inl rfl) content
  have entries (k : Nat) :
      entry (setPage (pop m frame rest) frame content) pgdir k = entry m pgdir k := by
    apply owned.entry_congr dir
    · exact set_page_other _ _ _ _ notFrame
    · intro table index label
      apply set_page_other
      rintro rfl
      rw [label] at wasFree
      contradiction
  have length : m.freelist.length = rest.length + 1 := by rw [list]; rfl
  refine (map_user_page counting strict filled dir' user flags ((entries n).trans absent)).mono
    ?_ ?_
  · rintro result ⟨done, κ', after, more, mapped, cost⟩
    have kept := more.label isUser nofun
    refine ⟨done, κ', after, grows.trans more, wasFree, kept, ?_, ?_, ?_⟩
    · rw [more.contents frame isUser, set_page_same]
    · intro k inside
      rw [mapped k inside, entries k]
    · simp only [set_page_freelist, pop_freelist] at cost
      omega
  · rintro stop ⟨rfl, none⟩
    simp only [set_page_freelist, pop_freelist] at none
    rw [none] at length
    exact ⟨rfl, by rw [length]; decide⟩

end Users
end Xv6Hacks.SpaceGrowth
