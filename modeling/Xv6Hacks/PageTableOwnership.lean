import Xv6Hacks.PageOwnership

/-!
# Changes of the translation

What the labelling of `PageOwnership` does when an entry is written, when a page becomes
a page table or a directory, and when a directory goes out of use.
-/

namespace Xv6Hacks.PageOwnership

open Function Kalloc PageTables ReferenceCounts

variable {pgdir table frame : Nat}

variable {b : Build} {κ : Nat → Kind} {hand : Option Nat} {m : Mem}

theorem dir_ne_table {other index : Nat} (dir : κ pgdir = .pgdir)
    (label : κ table = .pgtab other index) : pgdir ≠ table := by
  rintro rfl
  rw [dir] at label
  contradiction

section
variable (owned : Owned b κ hand m)
include owned

theorem Owned.write_entry {n : Nat} {pte : Pte} {hand' : Option Nat}
    (label : κ table = .pgtab pgdir (pdx n)) (page : n < vpages)
    (valid : n < userPages → pte = 0 ∨ (has pte pteP = true ∧ κ (pteFrame pte) = .user))
    (held : ∀ frame, hand' = some frame → κ frame = .user)
    (balance : ∀ frame, mappings κ (writeEntry m table (ptx n) pte) frame + share hand' frame =
    mappings κ m frame + share hand frame) : Owned b κ hand' (writeEntry m table (ptx n) pte) := by
  have dirPage (d index : Nat) (dir : κ d = .pgdir) :
      readEntry (writeEntry m table (ptx n) pte) d index = readEntry m d index :=
    read_write_entry_table m table _ pte d index (dir_ne_table dir label)
  have inVpages : userPages ≤ vpages := by decide
  constructor
  · exact owned.inside
  · exact owned.free
  · exact owned.once
  · exact held
  · intro d index dir bound
    rw [dirPage d index dir]
    exact owned.linked d index dir bound
  · intro t d index tableLabel
    obtain ⟨dir, bound, links⟩ := owned.tables t d index tableLabel
    rw [dirPage d index dir]
    exact ⟨dir, bound, links⟩
  · intro d k dir bound
    rw [owned.entry_write label page pte dir (by omega)]
    split
    · rename_i here
      rw [here.2] at bound
      exact valid bound
    · exact owned.mapped d k dir bound
  · intro frame user
    rw [balance]
    exact owned.used frame user
  · intro frame role
    rw [balance]
    exact owned.counted frame role

theorem Owned.set_kernel_entry {n : Nat} (label : κ table = .pgtab pgdir (pdx n))
    (page : n < vpages) (kernel : userPages ≤ n)
    (pte : Pte) : Owned b κ hand (writeEntry m table (ptx n) pte) := by
  apply owned.write_entry label page
  · intro bound
    omega
  · exact owned.held
  · intro frame
    congr 1
    apply refs_congr
    rintro ⟨d, k⟩ member
    rw [mem_places] at member
    simp only [target]
    split
    · rename_i dir
      rw [owned.entry_write label page pte dir (by omega), if_neg (by omega)]
    · rfl

theorem Owned.set_user_entry {n : Nat} {pte : Pte} {hand' : Option Nat}
    (label : κ table = .pgtab pgdir (pdx n)) (page : n < userPages)
    (valid : pte = 0 ∨ (has pte pteP = true ∧ κ (pteFrame pte) = .user))
    (held : ∀ frame, hand' = some frame → κ frame = .user)
    (balance : ∀ frame, share hand' frame + share (pteTarget pte) frame =
    share hand frame + share (pteTarget (entry m pgdir n)) frame) :
    Owned b κ hand' (writeEntry m table (ptx n) pte) := by
  have inVpages : userPages ≤ vpages := by decide
  have dir := (owned.tables table pgdir (pdx n) label).1
  apply owned.write_entry label (by omega) (fun _ => valid) held
  intro frame
  have changed : mappings κ (writeEntry m table (ptx n) pte) frame +
      share (target κ m (pgdir, n)) frame =
        mappings κ m frame + share (target κ (writeEntry m table (ptx n) pte) (pgdir, n)) frame := by
    apply refs_change (places_mem owned dir page)
    rintro ⟨d, k⟩ member different
    rw [mem_places] at member
    simp only [target]
    split
    · rename_i otherDir
      rw [owned.entry_write label (by omega) pte otherDir (by omega), if_neg]
      rintro ⟨rfl, rfl⟩
      exact different rfl
    · rfl
  have before : target κ m (pgdir, n) = pteTarget (entry m pgdir n) := if_pos dir
  have after : target κ (writeEntry m table (ptx n) pte) (pgdir, n) = pteTarget pte := by
    rw [target, if_pos dir, owned.entry_write label (by omega) pte dir (by omega),
      if_pos ⟨rfl, rfl⟩]
  rw [before, after] at changed
  have even := balance frame
  omega

theorem Owned.reshape {κ' : Nat → Kind} {after : Mem} (roles : ∀ frame, κ' frame = κ frame ∨
    ((κ' frame).kernelPage = true ∧ (κ frame).kernelPage = true))
    (linked : ∀ pgdir index, κ' pgdir = .pgdir → index < npdentries →
    readEntry after pgdir index = 0 ∨
    ∃ table, κ' table = .pgtab pgdir index ∧ readEntry after pgdir index = tablePte table)
    (tables : ∀ table pgdir index, κ' table = .pgtab pgdir index →
    κ' pgdir = .pgdir ∧ index < npdentries ∧ readEntry after pgdir index = tablePte table)
    (mapped : ∀ pgdir n, κ' pgdir = .pgdir → n < userPages →
    entry after pgdir n = 0 ∨ (κ pgdir = .pgdir ∧ entry after pgdir n = entry m pgdir n))
    (targets : ∀ pgdir n, n < userPages → target κ' after (pgdir, n) = target κ m (pgdir, n))
    (freelist : after.freelist = m.freelist) (refCount : after.refCount = m.refCount) :
    Owned b κ' hand after := by
  have keeps (frame : Nat) {role : Kind} (other : role.kernelPage = false) :
      κ' frame = role ↔ κ frame = role := by
    rcases roles frame with same | ⟨new, old⟩
    · rw [same]
    · constructor
      · rintro rfl
        rw [new] at other
        contradiction
      · rintro rfl
        rw [old] at other
        contradiction
  have sameMappings (frame : Nat) : mappings κ' after frame = mappings κ m frame := by
    apply refs_congr
    rintro ⟨pgdir, n⟩ member
    exact targets pgdir n ((mem_places pgdir n).mp member).2
  constructor
  · intro frame role
    exact owned.inside frame (mt (keeps frame rfl).mpr role)
  · intro frame
    rw [freelist, keeps frame rfl]
    exact owned.free frame
  · rw [freelist]
    exact owned.once
  · intro frame inHand
    exact (keeps frame rfl).mpr (owned.held frame inHand)
  · exact linked
  · exact tables
  · intro pgdir n dir page
    rcases mapped pgdir n dir page with empty | ⟨wasDir, same⟩
    · exact .inl empty
    · rw [same]
      rcases owned.mapped pgdir n wasDir page with empty | ⟨present, user⟩
      · exact .inl empty
      · exact .inr ⟨present, (keeps _ rfl).mpr user⟩
  · intro frame user
    rw [sameMappings]
    exact owned.used frame ((keeps frame rfl).mp user)
  · intro frame role
    rw [sameMappings, refCount]
    rcases roles frame with same | ⟨new, old⟩
    · rw [same] at role ⊢
      exact owned.counted frame role
    · have before := owned.counted frame (by
        intro outside
        rw [outside] at old
        contradiction)
      rw [role_count_kernel _ old] at before
      rw [role_count_kernel _ new]
      exact before

end

theorem update_kernel_roles {kind : Kind} (kernel : κ frame = .kernel)
    (new : kind.kernelPage = true) (other : Nat) : update κ frame kind other = κ other ∨
    ((update κ frame kind other).kernelPage = true ∧ (κ other).kernelPage = true) := by
  by_cases same : other = frame
  · right
    rw [same, update_self, kernel]
    exact ⟨new, rfl⟩
  · left
    exact update_of_ne same _ _

theorem update_kernel {other : Nat} {kind role : Kind} (kernel : κ frame = .kernel)
    (new : kind ≠ role) (old : Kind.kernel ≠ role) :
    update κ frame kind other = role ↔ κ other = role := by
  by_cases same : other = frame
  · rw [same, update_self, kernel]
    exact ⟨fun label => absurd label new, fun label => absurd label old⟩
  · rw [update_of_ne same]

section
variable (owned : Owned b κ hand m) (kernel : κ frame = .kernel) (zero : m.page frame = fun _ => 0)
include owned kernel zero

theorem Owned.link_entry {index : Nat} (dir : κ pgdir = .pgdir)
    (empty : readEntry m pgdir index = 0) {other : Nat} (otherDir : κ other = .pgdir) (n : Nat) :
    entry (writeEntry m pgdir index (tablePte frame)) other n = entry m other n := by
  have apart : frame ≠ pgdir := label_ne kernel dir nofun
  have tablePage (table d i : Nat) (label : κ table = .pgtab d i) :
      (writeEntry m pgdir index (tablePte frame)).page table = m.page table :=
    write_entry_page m pgdir index _ table (dir_ne_table dir label).symm
  by_cases same : other = pgdir
  · subst same
    by_cases here : pdx n = index
    · have before : findPte m other n = none := by
        rw [findPte, here, empty]
        rfl
      have inside : frame < maxpages := owned.bound (by simp [kernel])
      have found : findPte (writeEntry m other index (tablePte frame)) other n =
          some (frame, ptx n) := by
        rw [findPte, here, read_write_entry]
        simp only [table_pte_present, ↓reduceIte, table_pte_frame inside]
      rw [entry_of_find before, entry_found _ _ _ found]
      apply read_zero_page
      rw [write_entry_page m other index _ frame apart, zero]
    · have sameFind : findPte (writeEntry m other index (tablePte frame)) other n =
          findPte m other n := by
        rw [findPte, findPte, read_write_entry_index _ _ _ _ _ here]
      rcases owned.find_cases otherDir n with ⟨-, missing⟩ | ⟨table, label, found⟩
      · rw [entry_of_find missing, entry_of_find (sameFind.trans missing)]
      · rw [entry_found _ _ _ found, entry_found _ _ _ (sameFind.trans found)]
        exact read_entry_congr table _ (tablePage table _ _ label)
  · exact owned.entry_congr otherDir (write_entry_page m pgdir index _ other same)
      (fun table i label => tablePage table other i label) n

theorem Owned.link_table {index : Nat} (dir : κ pgdir = .pgdir) (bound : index < npdentries)
    (empty : readEntry m pgdir index = 0) : Owned b (update κ frame (.pgtab pgdir index)) hand
    (writeEntry m pgdir index (tablePte frame)) := by
  have isDir (other : Nat) : update κ frame (.pgtab pgdir index) other = .pgdir ↔
      κ other = .pgdir := update_kernel kernel (by simp) (by simp)
  have wasTable {table d i : Nat} (label : κ table = .pgtab d i) :
      update κ frame (.pgtab pgdir index) table = .pgtab d i := by
    rw [update_of_ne, label]
    rintro rfl
    rw [kernel] at label
    contradiction
  have sameEntry (other n : Nat) (otherDir : κ other = .pgdir) :=
    owned.link_entry kernel zero dir empty otherDir n
  have sameWord (d i : Nat) (elsewhere : ¬ (d = pgdir ∧ i = index)) :
      readEntry (writeEntry m pgdir index (tablePte frame)) d i = readEntry m d i := by
    by_cases sameDir : d = pgdir
    · rw [sameDir, read_write_entry_index]
      rintro rfl
      exact elsewhere ⟨sameDir, rfl⟩
    · exact read_write_entry_table m pgdir index _ d i sameDir
  apply owned.reshape (update_kernel_roles kernel rfl)
  · intro d i otherDir inside
    by_cases here : d = pgdir ∧ i = index
    · right
      refine ⟨frame, ?_, ?_⟩
      · rw [update_self, here.1, here.2]
      · rw [here.1, here.2, read_write_entry]
    · rw [sameWord d i here]
      rcases owned.linked d i ((isDir d).mp otherDir) inside with none | ⟨table, label, links⟩
      · exact .inl none
      · exact .inr ⟨table, wasTable label, links⟩
  · intro table d i label
    by_cases new : table = frame
    · rw [new, update_self] at label
      cases label
      refine ⟨(isDir pgdir).mpr dir, bound, ?_⟩
      rw [new, read_write_entry]
    · rw [update_of_ne new] at label
      obtain ⟨wasDir, inside, links⟩ := owned.tables table d i label
      refine ⟨(isDir d).mpr wasDir, inside, ?_⟩
      rw [sameWord d i]
      · exact links
      · rintro ⟨rfl, rfl⟩
        rw [empty] at links
        exact absurd (table_pte_present table) (by rw [← links]; decide)
  · intro d n otherDir _
    have wasDir := (isDir d).mp otherDir
    exact .inr ⟨wasDir, sameEntry d n wasDir⟩
  · intro d n _
    simp only [target]
    by_cases otherDir : κ d = .pgdir
    · rw [if_pos otherDir, if_pos ((isDir _).mpr otherDir), sameEntry _ _ otherDir]
    · rw [if_neg otherDir, if_neg (mt (isDir _).mp otherDir)]
  · rfl
  · rfl

theorem Owned.new_dir : Owned b (update κ frame .pgdir) hand m := by
  have isTable (other d i : Nat) :
      update κ frame .pgdir other = .pgtab d i ↔ κ other = .pgtab d i :=
    update_kernel kernel (by simp) (by simp)
  have emptyDir (i : Nat) : readEntry m frame i = 0 := read_zero_page m frame i zero
  have emptyEntry (n : Nat) : entry m frame n = 0 := by
    apply entry_of_find
    rw [findPte, emptyDir]
    rfl
  have dirCases {other : Nat} (label : update κ frame .pgdir other = .pgdir) :
      other = frame ∨ κ other = .pgdir := by
    by_cases same : other = frame
    · exact .inl same
    · rw [update_of_ne same] at label
      exact .inr label
  have wasDir {other : Nat} (label : κ other = .pgdir) : update κ frame .pgdir other = .pgdir := by
    rw [update_of_ne, label]
    rintro rfl
    rw [kernel] at label
    contradiction
  apply owned.reshape (update_kernel_roles kernel rfl)
  · intro d i label inside
    rcases dirCases label with rfl | dir
    · exact .inl (emptyDir i)
    · rcases owned.linked d i dir inside with none | ⟨table, tableLabel, links⟩
      · exact .inl none
      · exact .inr ⟨table, (isTable table d i).mpr tableLabel, links⟩
  · intro table d i label
    obtain ⟨dir, inside, links⟩ := owned.tables table d i ((isTable table d i).mp label)
    exact ⟨wasDir dir, inside, links⟩
  · intro d n label _
    rcases dirCases label with rfl | dir
    · exact .inl (emptyEntry n)
    · exact .inr ⟨dir, rfl⟩
  · intro d n _
    simp only [target]
    by_cases dir : κ d = .pgdir
    · rw [if_pos dir, if_pos (wasDir dir)]
    · rw [if_neg dir]
      split
      · rename_i label
        rcases dirCases label with rfl | old
        · rw [emptyEntry]
          rfl
        · exact absurd old dir
      · rfl
  · rfl
  · rfl

end

/-- The labels once a directory is no longer used: its pages are just pages. -/
def retired (κ : Nat → Kind) (pgdir frame : Nat) : Kind :=
  match κ frame with
  | .pgdir => if frame = pgdir then .kernel else .pgdir
  | .pgtab other index => if other = pgdir then .kernel else .pgtab other index
  | kind => kind

theorem retired_plain (plain : (κ frame).structural = false) : retired κ pgdir frame = κ frame := by
  rw [retired]
  cases label : κ frame with
  | pgdir =>
    rw [label] at plain
    contradiction
  | pgtab other index =>
    rw [label] at plain
    contradiction
  | outside => rfl
  | free => rfl
  | kernel => rfl
  | user => rfl

theorem retired_dir : retired κ pgdir frame = .pgdir ↔ κ frame = .pgdir ∧ frame ≠ pgdir := by
  rw [retired]
  cases κ frame with
  | pgdir => simp
  | pgtab other index =>
    by_cases same : other = pgdir
    · simp [same]
    · simp [same]
  | outside => simp
  | free => simp
  | kernel => simp
  | user => simp

theorem retired_table {d i : Nat} :
    retired κ pgdir frame = .pgtab d i ↔ κ frame = .pgtab d i ∧ d ≠ pgdir := by
  rw [retired]
  cases κ frame with
  | pgdir =>
    by_cases same : frame = pgdir
    · simp [same]
    · simp [same]
  | pgtab other index =>
    by_cases same : other = pgdir
    · simp only [same, ↓reduceIte, reduceCtorEq, Kind.pgtab.injEq, false_iff]
      rintro ⟨⟨rfl, -⟩, different⟩
      exact different rfl
    · simp only [same, ↓reduceIte, Kind.pgtab.injEq]
      constructor
      · rintro ⟨rfl, rfl⟩
        exact ⟨⟨rfl, rfl⟩, same⟩
      · exact fun both => both.1
  | outside => simp
  | free => simp
  | kernel => simp
  | user => simp

theorem Owned.retire (owned : Owned b κ hand m) (empty : ∀ n, n < userPages → entry m pgdir n = 0) :
    Owned b (retired κ pgdir) hand m := by
  apply owned.reshape
  · intro frame
    cases structural : (κ frame).structural with
    | false => exact .inl (retired_plain structural)
    | true =>
      right
      rw [retired]
      cases label : κ frame with
      | pgdir =>
        simp only
        split
        · exact ⟨rfl, rfl⟩
        · exact ⟨rfl, rfl⟩
      | pgtab other index =>
        simp only
        split
        · exact ⟨rfl, rfl⟩
        · exact ⟨rfl, rfl⟩
      | outside => simp [label, Kind.structural] at structural
      | free => simp [label, Kind.structural] at structural
      | kernel => exact ⟨rfl, rfl⟩
      | user => simp [label, Kind.structural] at structural
  · intro d i label inside
    obtain ⟨dir, different⟩ := retired_dir.mp label
    rcases owned.linked d i dir inside with none | ⟨table, tableLabel, links⟩
    · exact .inl none
    · exact .inr ⟨table, retired_table.mpr ⟨tableLabel, different⟩, links⟩
  · intro table d i label
    obtain ⟨tableLabel, different⟩ := retired_table.mp label
    obtain ⟨dir, inside, links⟩ := owned.tables table d i tableLabel
    exact ⟨retired_dir.mpr ⟨dir, different⟩, inside, links⟩
  · intro d n label _
    exact .inr ⟨(retired_dir.mp label).1, rfl⟩
  · intro d n page
    simp only [target, retired_dir]
    by_cases dir : κ d = .pgdir
    · by_cases same : d = pgdir
      · rw [if_neg (by simp [same]), if_pos dir, same, empty n page]
        rfl
      · rw [if_pos ⟨dir, same⟩, if_pos dir]
    · rw [if_neg dir, if_neg (fun both => dir both.1)]
  · rfl
  · rfl

end Xv6Hacks.PageOwnership
