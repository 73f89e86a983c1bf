import Xv6Hacks.AddressSpace
import Xv6Hacks.Outcomes
import Xv6Hacks.ReferenceCounts

/-!
# Who owns a page

A labelling gives every frame one role: free, a page directory, the page table of one
directory entry, a page of user memory, or another page of the kernel. `Owned` says that
the memory agrees with the labelling: the free list holds the free frames, every directory
entry leads to the page table labelled for it, present user entries lead to user pages, and
the reference counts are what the roles call for. A reference may be in the hand of the
running function, between the allocation of a page and its mapping.

Each lemma is one elementary change of the memory. Here are those that leave the
translation of addresses alone; the others are in `PageTableOwnership`.
-/

namespace Xv6Hacks.PageOwnership

open ByteBuffers Function Kalloc PageTables ReferenceCounts

variable {frame pgdir n : Nat} {hand' : Option Nat}

inductive Kind where
  | outside
  | free
  | kernel
  | pgdir
  | pgtab (pgdir index : Nat)
  | user
  deriving DecidableEq

theorem label_ne {κ : Nat → Kind} {a b : Nat} {first second : Kind} (atA : κ a = first)
    (atB : κ b = second) (different : first ≠ second) : a ≠ b := by
  rintro rfl
  exact different (atA.symm.trans atB)

def Kind.structural : Kind → Bool
  | .pgdir => true
  | .pgtab _ _ => true
  | _ => false

/-- The page is one of the kernel's own, with one reference. -/
def Kind.kernelPage : Kind → Bool
  | .kernel => true
  | .pgdir => true
  | .pgtab _ _ => true
  | _ => false

def tablePte (table : Nat) : Pte := makePte table (pteW ||| pteU)

def pteTarget (pte : Pte) : Option Nat := if has pte pteP then some (pteFrame pte) else none

/-- The page mapped at a place, a directory and a page number. -/
def target (κ : Nat → Kind) (m : Mem) (place : Nat × Nat) : Option Nat :=
  if κ place.1 = .pgdir then pteTarget (entry m place.1 place.2) else none

def places : Finset (Nat × Nat) := Finset.range maxpages ×ˢ Finset.range userPages

theorem mem_places (pgdir n : Nat) : (pgdir, n) ∈ places ↔ pgdir < maxpages ∧ n < userPages := by
  rw [places, Finset.mem_product, Finset.mem_range, Finset.mem_range]

-- There are too many places to enumerate.
attribute [irreducible] places

def mappings (κ : Nat → Kind) (m : Mem) (frame : Nat) : Nat := refs places (target κ m) frame

def roleCount : Kind → Nat → Int
  | .outside, _ => 0
  | .free, _ => 0
  | .user, references => references
  | _, _ => 1

theorem role_count_kernel {kind : Kind} (references : Nat) (kernel : kind.kernelPage = true) :
    roleCount kind references = 1 := by
  cases kind with
  | kernel => rfl
  | pgdir => rfl
  | pgtab pgdir index => rfl
  | outside => contradiction
  | free => contradiction
  | user => contradiction

structure Owned (b : Build) (κ : Nat → Kind) (hand : Option Nat) (m : Mem) : Prop where
  inside : ∀ frame, κ frame ≠ .outside → b.endFrame ≤ frame ∧ frame < maxpages
  free : ∀ frame, frame ∈ m.freelist ↔ κ frame = .free
  once : m.freelist.Nodup
  held : ∀ frame, hand = some frame → κ frame = .user
  linked : ∀ pgdir index, κ pgdir = .pgdir → index < npdentries →
    readEntry m pgdir index = 0 ∨
      ∃ table, κ table = .pgtab pgdir index ∧ readEntry m pgdir index = tablePte table
  tables : ∀ table pgdir index, κ table = .pgtab pgdir index →
    κ pgdir = .pgdir ∧ index < npdentries ∧ readEntry m pgdir index = tablePte table
  mapped : ∀ pgdir n, κ pgdir = .pgdir → n < userPages →
    entry m pgdir n = 0 ∨
      (has (entry m pgdir n) pteP = true ∧ κ (pteFrame (entry m pgdir n)) = .user)
  used : ∀ frame, κ frame = .user → 0 < mappings κ m frame + share hand frame
  counted : ∀ frame, κ frame ≠ .outside →
    m.refCount frame = roleCount (κ frame) (mappings κ m frame + share hand frame)

section Finding
variable {b : Build} {κ : Nat → Kind} {hand : Option Nat} {m after : Mem}

theorem user_pages_value : userPages = 524288 := by decide

theorem pdx_lt (n : Nat) : pdx n < npdentries := Nat.mod_lt _ (by decide)

theorem table_pte_frame {table : Nat} (inside : table < maxpages) :
    pteFrame (tablePte table) = table := by
  exact make_pte_frame (frame_in_space inside) (by decide)

theorem table_pte_present (table : Nat) : has (tablePte table) pteP = true := make_pte_present

section
variable (owned : Owned b κ hand m)
include owned

theorem Owned.bound (role : κ frame ≠ .outside) : frame < maxpages := (owned.inside frame role).2

theorem Owned.find_table {table : Nat}
    (label : κ table = .pgtab pgdir (pdx n)) : findPte m pgdir n = some (table, ptx n) := by
  have inside : table < maxpages := owned.bound (by simp [label])
  rw [findPte, (owned.tables table pgdir (pdx n) label).2.2]
  simp only [table_pte_present, ↓reduceIte, table_pte_frame inside]

theorem Owned.find_cases (dir : κ pgdir = .pgdir) (n : Nat) :
    (readEntry m pgdir (pdx n) = 0 ∧ findPte m pgdir n = none) ∨
    ∃ table, κ table = .pgtab pgdir (pdx n) ∧ findPte m pgdir n = some (table, ptx n) := by
  rcases owned.linked pgdir (pdx n) dir (pdx_lt n) with empty | ⟨table, label, -⟩
  · left
    refine ⟨empty, ?_⟩
    rw [findPte, empty]
    rfl
  · right
    exact ⟨table, label, owned.find_table label⟩

theorem Owned.table_unique {left right index : Nat} (leftLabel : κ left = .pgtab pgdir index)
    (rightLabel : κ right = .pgtab pgdir index) : left = right := by
  have leftInside : left < maxpages := owned.bound (by simp [leftLabel])
  have rightInside : right < maxpages := owned.bound (by simp [rightLabel])
  have same : tablePte left = tablePte right :=
    (owned.tables left pgdir index leftLabel).2.2.symm.trans
      (owned.tables right pgdir index rightLabel).2.2
  rw [← table_pte_frame leftInside, same, table_pte_frame rightInside]

end

theorem entry_of_find (missing : findPte m pgdir n = none) : entry m pgdir n = 0 := by
  rw [entry, missing]

theorem Owned.entry_congr (owned : Owned b κ hand m) (dir : κ pgdir = .pgdir)
    (samePgdir : after.page pgdir = m.page pgdir)
    (sameTables : ∀ table index, κ table = .pgtab pgdir index → after.page table = m.page table)
    (n : Nat) : entry after pgdir n = entry m pgdir n := by
  have sameFind : findPte after pgdir n = findPte m pgdir n := find_pte_congr n samePgdir
  rcases owned.find_cases dir n with ⟨-, missing⟩ | ⟨table, label, found⟩
  · rw [entry_of_find missing, entry_of_find (sameFind.trans missing)]
  · rw [entry_found _ _ _ found, entry_found _ _ _ (sameFind.trans found)]
    exact read_entry_congr table _ (sameTables table _ label)

theorem entry_page_congr (same : after.page = m.page) (pgdir n : Nat) :
    entry after pgdir n = entry m pgdir n := by
  cases m
  cases after
  cases same
  rfl

theorem Owned.entry_write (owned : Owned b κ hand m) {table : Nat}
    (label : κ table = .pgtab pgdir (pdx n)) (page : n < vpages) (pte : Pte) {other k : Nat}
    (dir : κ other = .pgdir) (otherPage : k < vpages) :
    entry (writeEntry m table (ptx n) pte) other k =
      if other = pgdir ∧ k = n then pte else entry m other k := by
  have apart : other ≠ table := label_ne dir label nofun
  have sameFind : findPte (writeEntry m table (ptx n) pte) other k = findPte m other k :=
    find_pte_congr k (write_entry_page m table _ pte other apart)
  have index (i : Nat) (inside : i < vpages) : i = pdx i * nptentries + ptx i := by
    rw [vpages_value] at inside
    simp only [pdx, ptx, nptentries, npdentries]
    omega
  rcases owned.find_cases dir k with ⟨empty, missing⟩ | ⟨found, foundLabel, foundAt⟩
  · have different : ¬ (other = pgdir ∧ k = n) := by
      rintro ⟨rfl, rfl⟩
      exact absurd ((owned.find_table label).symm.trans missing) (by simp)
    rw [if_neg different, entry_of_find missing, entry_of_find (sameFind.trans missing)]
  · rw [entry_found _ _ _ foundAt, entry_found _ _ _ (sameFind.trans foundAt)]
    by_cases same : found = table
    · subst same
      rw [foundLabel] at label
      injection label with sameDir sameIndex
      by_cases slot : ptx k = ptx n
      · have equal : k = n := by
          rw [index k otherPage, index n page, sameIndex, slot]
        rw [if_pos ⟨sameDir, equal⟩, slot, read_write_entry]
      · rw [if_neg (by rintro ⟨-, rfl⟩; exact slot rfl), read_write_entry_index _ _ _ _ _ slot]
    · have different : ¬ (other = pgdir ∧ k = n) := by
        rintro ⟨rfl, rfl⟩
        exact same (owned.table_unique foundLabel label)
      rw [if_neg different, read_write_entry_table _ _ _ _ _ _ same]

end Finding

section Plain
variable {b : Build} {κ : Nat → Kind} {hand : Option Nat} {m after : Mem}

theorem places_mem (owned : Owned b κ hand m) (dir : κ pgdir = .pgdir) (page : n < userPages) :
    (pgdir, n) ∈ places := by
  exact (mem_places pgdir n).mpr ⟨owned.bound (by simp [dir]), page⟩

theorem target_present (mapped : target κ m (pgdir, n) = some frame) :
    κ pgdir = .pgdir ∧ has (entry m pgdir n) pteP = true ∧ pteFrame (entry m pgdir n) = frame := by
  simp only [target, pteTarget] at mapped
  split at mapped
  · rename_i dir
    split at mapped
    · rename_i present
      exact ⟨dir, present, Option.some.inj mapped⟩
    · contradiction
  · contradiction

section
variable (owned : Owned b κ hand m)
include owned

theorem Owned.present_user (dir : κ pgdir = .pgdir) (page : n < userPages)
    (present : has (entry m pgdir n) pteP = true) : κ (pteFrame (entry m pgdir n)) = .user := by
  rcases owned.mapped pgdir n dir page with empty | ⟨-, user⟩
  · rw [empty] at present
    contradiction
  · exact user

theorem Owned.target_user (page : n < userPages)
    (mapped : target κ m (pgdir, n) = some frame) : κ frame = .user := by
  obtain ⟨dir, present, rfl⟩ := target_present mapped
  exact owned.present_user dir page present

theorem Owned.unmapped (role : κ frame ≠ .user) : mappings κ m frame = 0 := by
  apply refs_zero
  rintro ⟨pgdir, n⟩ member mapped
  exact role (owned.target_user ((mem_places pgdir n).mp member).2 mapped)

/-- The labels of the translation stay, and so do its pages; everything else may change
as long as the new memory agrees with the new labels. -/
theorem Owned.transfer {κ' : Nat → Kind} (structure' : ∀ frame, κ' frame = κ frame ∨
    ((κ' frame).structural = false ∧ (κ frame).structural = false ∧
    b.endFrame ≤ frame ∧ frame < maxpages))
    (pages : ∀ frame, (κ frame).structural = true → after.page frame = m.page frame)
    (free : ∀ frame, frame ∈ after.freelist ↔ κ' frame = .free) (once : after.freelist.Nodup)
    (held : ∀ frame, hand' = some frame → κ' frame = .user)
    (unmapped : ∀ frame, κ' frame ≠ .user → mappings κ m frame = 0)
    (used : ∀ frame, κ' frame = .user → 0 < mappings κ m frame + share hand' frame)
    (counted : ∀ frame, κ' frame ≠ .outside →
    after.refCount frame = roleCount (κ' frame) (mappings κ m frame + share hand' frame)) :
    Owned b κ' hand' after := by
  have keeps (frame : Nat) (role : Kind) (structural : role.structural = true) :
      κ' frame = role ↔ κ frame = role := by
    rcases structure' frame with same | ⟨new, old, -, -⟩
    · rw [same]
    · constructor
      · intro label
        rw [label, structural] at new
        contradiction
      · intro label
        rw [label, structural] at old
        contradiction
  have isDir (frame : Nat) : κ' frame = .pgdir ↔ κ frame = .pgdir := keeps frame .pgdir rfl
  have isTable (frame pgdir index : Nat) :
      κ' frame = .pgtab pgdir index ↔ κ frame = .pgtab pgdir index :=
    keeps frame (.pgtab pgdir index) rfl
  have dirPage (pgdir : Nat) (dir : κ pgdir = .pgdir) : after.page pgdir = m.page pgdir :=
    pages pgdir (by rw [dir]; rfl)
  have tablePage (table pgdir index : Nat) (label : κ table = .pgtab pgdir index) :
      after.page table = m.page table := pages table (by rw [label]; rfl)
  have sameEntry (pgdir n : Nat) (dir : κ pgdir = .pgdir) : entry after pgdir n = entry m pgdir n :=
    owned.entry_congr dir (dirPage pgdir dir) (fun table index => tablePage table pgdir index) n
  have sameMappings (frame : Nat) : mappings κ' after frame = mappings κ m frame := by
    apply refs_congr
    intro place _
    rw [target, target]
    by_cases dir : κ place.1 = .pgdir
    · rw [if_pos dir, if_pos ((isDir _).mpr dir), sameEntry _ _ dir]
    · rw [if_neg dir, if_neg (mt (isDir _).mp dir)]
  constructor
  · intro frame role
    rcases structure' frame with same | ⟨-, -, bounds⟩
    · rw [same] at role
      exact owned.inside frame role
    · exact bounds
  · exact free
  · exact once
  · exact held
  · intro pgdir index dir bound
    have wasDir := (isDir pgdir).mp dir
    rw [read_entry_congr pgdir index (dirPage pgdir wasDir)]
    rcases owned.linked pgdir index wasDir bound with empty | ⟨table, label, links⟩
    · exact .inl empty
    · exact .inr ⟨table, (isTable table pgdir index).mpr label, links⟩
  · intro table pgdir index label
    obtain ⟨dir, bound, links⟩ :=
      owned.tables table pgdir index ((isTable table pgdir index).mp label)
    refine ⟨(isDir pgdir).mpr dir, bound, ?_⟩
    rw [read_entry_congr pgdir index (dirPage pgdir dir)]
    exact links
  · intro pgdir n dir page
    have wasDir := (isDir pgdir).mp dir
    rw [sameEntry pgdir n wasDir]
    rcases owned.mapped pgdir n wasDir page with empty | ⟨present, user⟩
    · exact .inl empty
    · right
      refine ⟨present, ?_⟩
      by_contra other
      have mapped : target κ m (pgdir, n) = some (pteFrame (entry m pgdir n)) := by
        rw [target, if_pos wasDir, pteTarget, if_pos present]
      have positive : 0 < mappings κ m (pteFrame (entry m pgdir n)) :=
        refs_pos (places_mem owned wasDir page) mapped
      exact absurd (unmapped _ other) positive.ne'
  · intro frame user
    rw [sameMappings]
    exact used frame user
  · intro frame role
    rw [sameMappings]
    exact counted frame role

theorem Owned.relabel {kind : Kind} (old : (κ frame).structural = false)
    (new : kind.structural = false) (bounds : b.endFrame ≤ frame ∧ frame < maxpages)
    (pages : ∀ other, (κ other).structural = true → after.page other = m.page other)
    (free : ∀ other, other ∈ after.freelist ↔ update κ frame kind other = .free)
    (once : after.freelist.Nodup)
    (held : ∀ other, hand' = some other → update κ frame kind other = .user)
    (unmapped : kind ≠ .user → mappings κ m frame = 0)
    (used : kind = .user → 0 < mappings κ m frame + share hand' frame)
    (count : after.refCount frame = roleCount kind (mappings κ m frame + share hand' frame))
    (others : ∀ other, other ≠ frame →
    after.refCount other = m.refCount other ∧ share hand' other = share hand other) :
    Owned b (update κ frame kind) hand' after := by
  apply owned.transfer
  · intro other
    by_cases same : other = frame
    · right
      rw [same, update_self]
      exact ⟨new, old, bounds⟩
    · left
      exact update_of_ne same _ _
  · exact pages
  · exact free
  · exact once
  · exact held
  · intro other role
    by_cases same : other = frame
    · rw [same, update_self] at role
      rw [same]
      exact unmapped role
    · rw [update_of_ne same] at role
      exact owned.unmapped role
  · intro other role
    by_cases same : other = frame
    · rw [same, update_self] at role
      rw [same]
      exact used role
    · rw [update_of_ne same] at role
      rw [(others other same).2]
      exact owned.used other role
  · intro other role
    by_cases same : other = frame
    · subst same
      rw [update_self]
      exact count
    · rw [update_of_ne same] at role ⊢
      rw [(others other same).1, (others other same).2]
      exact owned.counted other role

theorem Owned.repage
    (pages : ∀ frame, (κ frame).structural = true → after.page frame = m.page frame)
    (freelist : after.freelist = m.freelist) (refCount : after.refCount = m.refCount) :
    Owned b κ hand after := by
  apply owned.transfer (fun frame => .inl rfl) pages
  · intro frame
    rw [freelist]
    exact owned.free frame
  · rw [freelist]
    exact owned.once
  · exact owned.held
  · intro frame role
    exact owned.unmapped role
  · exact owned.used
  · intro frame role
    rw [refCount]
    exact owned.counted frame role

theorem Owned.set_page (plain : (κ frame).structural = false) (content : Buffer) :
    Owned b κ hand (setPage m frame content) := by
  apply owned.repage
  · intro other structural
    apply set_page_other
    rintro rfl
    rw [plain] at structural
    contradiction
  · rfl
  · rfl

theorem Owned.entry_set_page (plain : (κ frame).structural = false) (content : Buffer)
    (dir : κ pgdir = .pgdir) (n : Nat) :
    entry (setPage m frame content) pgdir n = entry m pgdir n := by
  have page (other : Nat) (structural : (κ other).structural = true) :
      (setPage m frame content).page other = m.page other := by
    apply set_page_other
    rintro rfl
    rw [plain] at structural
    contradiction
  apply owned.entry_congr dir
  · exact page pgdir (by rw [dir]; rfl)
  · intro table index label
    exact page table (by rw [label]; rfl)

theorem Owned.head_free {rest : List Nat} (list : m.freelist = frame :: rest) : κ frame = .free :=
  (owned.free frame).mp (by rw [list]; exact .head _)

theorem Owned.take {rest : List Nat} {kind : Kind} (list : m.freelist = frame :: rest)
    (role : (kind = .kernel ∧ hand' = hand) ∨ (kind = .user ∧ hand = none ∧ hand' = some frame)) :
    Owned b (update κ frame kind) hand' (pop m frame rest) := by
  have wasFree := owned.head_free list
  have noMapping : mappings κ m frame = 0 := owned.unmapped (by simp [wasFree])
  have fresh : m.refCount frame = 0 := by
    rw [owned.counted frame (by simp [wasFree]), wasFree]
    rfl
  have once := owned.once
  rw [list, List.nodup_cons] at once
  have apart : hand ≠ some frame := by
    intro inHand
    have user := owned.held frame inHand
    rw [wasFree] at user
    contradiction
  have notFree : kind ≠ .free := by
    rcases role with ⟨rfl, -⟩ | ⟨rfl, -⟩
    · simp
    · simp
  apply owned.relabel
  · rw [wasFree]
    rfl
  · rcases role with ⟨rfl, -⟩ | ⟨rfl, -⟩
    · rfl
    · rfl
  · exact owned.inside frame (by simp [wasFree])
  · intro other _
    rfl
  · intro other
    have before := owned.free other
    rw [list, List.mem_cons] at before
    rw [pop_freelist]
    by_cases same : other = frame
    · subst same
      rw [update_self]
      exact ⟨fun member => absurd member once.1, fun free => absurd free notFree⟩
    · rw [update_of_ne same, ← before]
      simp [same]
  · exact once.2
  · intro other inHand
    rcases role with ⟨-, rfl⟩ | ⟨rfl, -, rfl⟩
    · have different : other ≠ frame := by
        rintro rfl
        exact apart inHand
      rw [update_of_ne different]
      exact owned.held other inHand
    · cases inHand
      exact update_self _ _ _
  · intro _
    exact noMapping
  · intro user
    rcases role with ⟨rfl, -⟩ | ⟨-, -, rfl⟩
    · contradiction
    · rw [share, if_pos rfl]
      omega
  · rw [pop_ref_count, update_self, fresh, noMapping]
    rcases role with ⟨rfl, -⟩ | ⟨rfl, -, rfl⟩
    · rfl
    · simp [roleCount, share]
  · intro other different
    constructor
    · rw [pop_ref_count, update_of_ne different]
    · rcases role with ⟨-, rfl⟩ | ⟨-, rfl, rfl⟩
      · rfl
      · simp [share, different.symm]

theorem Owned.recount {count : Int} (user : κ frame = .user)
    (held : ∀ other, hand' = some other → κ other = .user)
    (used : 0 < mappings κ m frame + share hand' frame)
    (exact' : count = (mappings κ m frame + share hand' frame : Nat))
    (others : ∀ other, other ≠ frame → share hand' other = share hand other) :
    Owned b κ hand' (setRefCount m frame count) := by
  apply owned.transfer
  · exact fun _ => .inl rfl
  · exact fun _ _ => rfl
  · exact owned.free
  · exact owned.once
  · exact held
  · intro other role
    exact owned.unmapped role
  · intro other role
    by_cases same : other = frame
    · rw [same]
      exact used
    · rw [others other same]
      exact owned.used other role
  · intro other role
    by_cases same : other = frame
    · rw [same, set_ref_count_same, user, exact', roleCount]
    · rw [set_ref_count_other _ _ _ _ same, others other same]
      exact owned.counted other role

theorem Owned.user_count (user : κ frame = .user) :
    m.refCount frame = (mappings κ m frame + share hand frame : Nat) := by
  rw [owned.counted frame (by simp [user]), user, roleCount]

end

theorem Owned.inc_ref (owned : Owned b κ none m) (user : κ frame = .user) :
    Owned b κ (some frame) (setRefCount m frame (m.refCount frame + 1)) := by
  have before := owned.user_count user
  have none : share (none : Option Nat) frame = 0 := by simp [share]
  have one : share (some frame) frame = 1 := by simp [share]
  apply owned.recount user
  · rintro other ⟨⟩
    exact user
  · omega
  · rw [before, none, one]
    push_cast
    omega
  · intro other different
    simp [share, different.symm]

theorem Owned.dec_ref (owned : Owned b κ (some frame) m) (more : 0 < mappings κ m frame) :
    Owned b κ none (setRefCount m frame (m.refCount frame - 1)) := by
  have user := owned.held frame rfl
  have before := owned.user_count user
  have none : share (none : Option Nat) frame = 0 := by simp [share]
  have one : share (some frame) frame = 1 := by simp [share]
  apply owned.recount user
  · rintro other ⟨⟩
  · omega
  · rw [before, none, one]
    push_cast
    omega
  · intro other different
    simp [share, different.symm]

theorem Owned.freed_list (owned : Owned b κ hand m) (role : κ frame ≠ .free) :
    (∀ other, other ∈ frame :: m.freelist ↔ update κ frame .free other = .free) ∧
    (frame :: m.freelist).Nodup := by
  constructor
  · intro other
    rw [List.mem_cons, owned.free other]
    by_cases same : other = frame
    · simp [same]
    · rw [update_of_ne same]
      simp [same]
  · rw [List.nodup_cons]
    exact ⟨fun member => role ((owned.free frame).mp member), owned.once⟩

theorem Owned.donate (owned : Owned b κ hand m) (nobody : κ frame = .outside)
    (unused : m.refCount frame = 0) (bounds : b.endFrame ≤ frame ∧ frame < maxpages) :
    Owned b (update κ frame .free) hand (push (memset m frame 1) frame) := by
  have noMapping : mappings κ m frame = 0 := owned.unmapped (by simp [nobody])
  obtain ⟨free, once⟩ := owned.freed_list (by rw [nobody]; simp : κ frame ≠ .free)
  apply owned.relabel
  · rw [nobody]
    rfl
  · rfl
  · exact bounds
  · intro other structural
    apply set_page_other
    rintro rfl
    rw [nobody] at structural
    contradiction
  · exact free
  · exact once
  · intro other inHand
    have user := owned.held other inHand
    have different : other ≠ frame := label_ne user nobody nofun
    rw [update_of_ne different]
    exact user
  · exact fun _ => noMapping
  · simp
  · exact unused
  · exact fun _ _ => ⟨rfl, rfl⟩

theorem drop_page_other {other : Nat} (different : other ≠ frame) :
    (drop m frame).page other = m.page other := by
  rw [drop_page, update_of_ne different]

theorem Owned.drop_kernel (owned : Owned b κ hand m) (kernel : κ frame = .kernel) :
    Owned b (update κ frame .free) hand (drop m frame) := by
  have count : m.refCount frame = 1 := by
    rw [owned.counted frame (by simp [kernel]), kernel]
    rfl
  have notFree : κ frame ≠ .free := by
    rw [kernel]
    simp
  obtain ⟨free, once⟩ := owned.freed_list notFree
  apply owned.relabel
  · rw [kernel]
    rfl
  · rfl
  · exact owned.inside frame (by simp [kernel])
  · intro other structural
    apply drop_page_other
    rintro rfl
    rw [kernel] at structural
    contradiction
  · rw [drop_freelist_last _ _ count]
    exact free
  · rw [drop_freelist_last _ _ count]
    exact once
  · intro other inHand
    have user := owned.held other inHand
    have different : other ≠ frame := label_ne user kernel nofun
    rw [update_of_ne different]
    exact user
  · intro _
    exact owned.unmapped (by simp [kernel])
  · simp
  · rw [drop_ref_count, update_self, count]
    rfl
  · intro other different
    rw [drop_ref_count, update_of_ne different]
    exact ⟨rfl, rfl⟩

/-- The labels after the last or another reference to a user page has gone. -/
def released (κ : Nat → Kind) (m : Mem) (frame : Nat) : Nat → Kind :=
  if mappings κ m frame = 0 then update κ frame .free else κ

theorem Owned.drop_user (owned : Owned b κ (some frame) m) :
    Owned b (released κ m frame) none (drop m frame) := by
  have user := owned.held frame rfl
  have count := owned.user_count user
  have one : share (some frame) frame = 1 := by simp [share]
  have zero (other : Nat) : share (none : Option Nat) other = 0 := by simp [share]
  have apart (other : Nat) (different : other ≠ frame) : share (some frame) other = 0 := by
    simp [share, different.symm]
  have pages (other : Nat) (structural : (κ other).structural = true) :
      (drop m frame).page other = m.page other := by
    apply drop_page_other
    rintro rfl
    rw [user] at structural
    contradiction
  rw [released]
  split
  · rename_i unmapped
    have last : m.refCount frame = 1 := by
      rw [count, unmapped, one]
      rfl
    have notFree : κ frame ≠ .free := by
      rw [user]
      simp
    obtain ⟨free, once⟩ := owned.freed_list notFree
    apply owned.relabel
    · rw [user]
      rfl
    · rfl
    · exact owned.inside frame (by simp [user])
    · exact pages
    · rw [drop_freelist_last _ _ last]
      exact free
    · rw [drop_freelist_last _ _ last]
      exact once
    · rintro other ⟨⟩
    · exact fun _ => unmapped
    · simp
    · rw [drop_ref_count, update_self, last]
      rfl
    · intro other different
      rw [drop_ref_count, update_of_ne different, zero, apart other different]
      exact ⟨rfl, rfl⟩
  · rename_i mapped
    have shared : m.refCount frame ≠ 1 := by
      rw [count, one]
      omega
    apply owned.transfer
    · exact fun _ => .inl rfl
    · exact pages
    · rw [drop_freelist_shared _ _ shared]
      exact owned.free
    · rw [drop_freelist_shared _ _ shared]
      exact owned.once
    · rintro other ⟨⟩
    · intro other role
      exact owned.unmapped role
    · intro other role
      rw [zero]
      by_cases same : other = frame
      · rw [same]
        omega
      · have before := owned.used other role
        rw [apart other same] at before
        exact before
    · intro other role
      rw [drop_ref_count, zero]
      by_cases same : other = frame
      · rw [same, update_self, count, one, user, roleCount]
        push_cast
        omega
      · rw [update_of_ne same]
        have before := owned.counted other role
        rw [apart other same] at before
        exact before

end Plain
end Xv6Hacks.PageOwnership
