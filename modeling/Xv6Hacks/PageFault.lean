import Xv6Hacks.AddressSpace
import Xv6Hacks.Outcomes

/-!
# Page faults

`pgflthandler` and the `T_PGFLT` path of `trap` (build without `-Doriginal`) for a fault
taken in user mode. What the handler prints is left out, but not the calls it makes to
find out what to print. The last line of `trap` that matters is the exit of a killed
process, which `exit` refuses to `initproc`.
-/

namespace Xv6Hacks.PageFault

open AddressSpace Function Kalloc Outcomes PageTables

/-- What the path reads of `proc`. -/
structure Proc where
  pgdir : Nat
  killed : Bool
  initproc : Bool

def copyPage (b : Build) (m : Mem) (pgdir n table index vpage : Nat) : Except Stop Mem := do
  let pte := readEntry m table index
  match ← kalloc b m with
  | (none, _) => .error .nullPage
  | (some mem, m) =>
    let m := memset m mem 0
    let m := setPage m mem (m.page (pteFrame pte))
    let m := writeEntry m table index (readEntry m table index &&& ~~~ pteP)
    match ← mapPage b m pgdir n mem (pteW ||| pteFlags pte) with
    | (false, _) => .error .mappingPages
    | (true, m) => decRefCount m vpage

def reclaimPage (b : Build) (m : Mem) (pgdir n table index : Nat) : Except Stop Mem := do
  let pte := readEntry m table index
  let m := writeEntry m table index (pte &&& ~~~ pteP)
  let flags := pteFlags pte &&& ~~~ (pteCow ||| pteP) ||| pteW
  match ← mapPage b m pgdir n (pteFrame pte) flags with
  | (false, _) => .error .mappingPages
  | (true, m) => .ok m

def cowFault (b : Build) (m : Mem) (pgdir n table index vpage : Nat) (refCount : Int) :
    Except Stop Mem :=
  if 1 < refCount then copyPage b m pgdir n table index vpage
  else if refCount = 1 then reclaimPage b m pgdir n table index
  else .ok m

def pgflthandler (b : Build) (m : Mem) (pgdir faultAddr : Nat) : Except Stop Mem := do
  let n := faultAddr / pgsize
  let vpage ← uva2ka m pgdir n
  match findPte m pgdir n with
  | none => .error .fetchingPte
  | some (table, index) =>
    if has (readEntry m table index) pteCow then
      let refCount ← getRefCount m vpage
      cowFault b m pgdir n table index vpage refCount
    else .error .notCow

/-- The `T_PGFLT` case; a read fault only looks the address up. -/
def pgfltCase (b : Build) (m : Mem) (pgdir faultAddr : Nat) (write : Bool) : Except Stop Mem :=
  if write then pgflthandler b m pgdir faultAddr
  else do
    let _ ← uva2ka m pgdir (faultAddr / pgsize)
    .ok m

def trapPgflt (b : Build) (m : Mem) (proc : Proc) (faultAddr : Nat) (write : Bool) :
    Except Stop (Mem × Proc) := do
  let m ← pgfltCase b m proc.pgdir faultAddr write
  if proc.killed ∧ proc.initproc then .error .initExiting else .ok (m, proc)

/-- The hardware's check of an access from user mode. -/
def Accessible (m : Mem) (pgdir n : Nat) (write : Bool) : Prop :=
  has (entry m pgdir n) pteP = true ∧ has (entry m pgdir n) pteU = true ∧
    (write = true → has (entry m pgdir n) pteW = true)

def Unshared (m : Mem) (pgdir n : Nat) : Prop := m.refCount (pteFrame (entry m pgdir n)) = 1

/-- The fault ends with a private page or a killed process. -/
def Serviced (b : Build) (m : Mem) (proc : Proc) (faultAddr : Nat) (write : Bool) : Prop :=
  ∃ after proc', trapPgflt b m proc faultAddr write = .ok (after, proc') ∧
    (proc'.killed = true ∨ (Accessible after proc.pgdir (faultAddr / pgsize) write ∧
        Unshared after proc.pgdir (faultAddr / pgsize)))

/-- When the code gets there. -/
def Serviceable (m : Mem) (proc : Proc) (faultAddr : Nat) (write : Bool) : Prop :=
  ∃ table index, findPte m proc.pgdir (faultAddr / pgsize) = some (table, index) ∧
    ¬ (proc.killed = true ∧ proc.initproc = true) ∧
    let pte := readEntry m table index
    if write then
      has pte pteCow = true ∧ has pte pteP = true ∧ has pte pteU = true ∧
        (m.refCount (pteFrame pte) = 1 ∨ (1 < m.refCount (pteFrame pte) ∧ m.freelist ≠ []) ∨
          (m.refCount (pteFrame pte) < 1 ∧ proc.killed = true))
    else proc.killed = true

/-- The pages involved are different ones: a free page has no references and is not the
directory or the page table, and a page that user code can reach is one of memory. -/
structure Apart (m : Mem) (pgdir n : Nat) : Prop where
  unused : ∀ frame ∈ m.freelist, frame < maxpages ∧ m.refCount frame = 0 ∧ frame ≠ pgdir
  table : ∀ table index, findPte m pgdir n = some (table, index) →
    table ≠ pgdir ∧ table ∉ m.freelist
  inside : has (entry m pgdir n) pteP = true → has (entry m pgdir n) pteU = true →
    pteFrame (entry m pgdir n) < maxpages

section Cases
variable {b : Build} {m : Mem} {pgdir faultAddr table index : Nat}

theorem handler_no_table (missing : findPte m pgdir (faultAddr / pgsize) = none) :
    pgflthandler b m pgdir faultAddr = .error .nullPte := by
  simp only [pgflthandler, uva2ka, missing, bind, Except.bind]

variable (found : findPte m pgdir (faultAddr / pgsize) = some (table, index))
include found

theorem uva2ka_found : uva2ka m pgdir (faultAddr / pgsize) =
      .ok (if has (readEntry m table index) pteP = true ∧ has (readEntry m table index) pteU = true
        then p2v (pteFrame (readEntry m table index) * pgsize) else 0) := by
  simp only [uva2ka, found]
  cases has (readEntry m table index) pteP with
  | false => simp
  | true =>
    cases has (readEntry m table index) pteU with
    | false => simp
    | true => simp

theorem handler_not_cow (plain : has (readEntry m table index) pteCow = false) :
    pgflthandler b m pgdir faultAddr = .error .notCow := by
  simp only [pgflthandler, uva2ka_found found, found, plain, bind, Except.bind,
    Bool.false_eq_true, ↓reduceIte]

/-- `uva2ka` returns 0 and `getRefCount` takes the run of address 0. -/
theorem handler_hidden (cow : has (readEntry m table index) pteCow = true)
    (hidden : ¬ (has (readEntry m table index) pteP = true ∧
    has (readEntry m table index) pteU = true)) :
    pgflthandler b m pgdir faultAddr = .error .runsIndex := by
  simp only [pgflthandler, uva2ka_found found, found, cow, if_neg hidden, getRefCount,
    run_index_null, bind, Except.bind, ↓reduceIte]

variable (cow : has (readEntry m table index) pteCow = true)
  (present : has (readEntry m table index) pteP = true)
  (user : has (readEntry m table index) pteU = true)
  (inside : pteFrame (readEntry m table index) < maxpages)
include cow present user inside

theorem handler_cow : pgflthandler b m pgdir faultAddr =
    cowFault b m pgdir (faultAddr / pgsize) table index
    (p2v (pteFrame (readEntry m table index) * pgsize))
    (m.refCount (pteFrame (readEntry m table index))) := by
  have address : uva2ka m pgdir (faultAddr / pgsize) =
      .ok (p2v (pteFrame (readEntry m table index) * pgsize)) := by
    rw [uva2ka_found found, if_pos ⟨present, user⟩]
  have count : getRefCount m (p2v (pteFrame (readEntry m table index) * pgsize)) =
      .ok (m.refCount (pteFrame (readEntry m table index))) := by
    rw [getRefCount, run_index_p2v _ inside]
    rfl
  rw [pgflthandler]
  simp only [address, found, cow, ↓reduceIte]
  rw [ok_bind, count]
  rfl

end Cases

section Results
variable {b : Build} {m : Mem} {pgdir n table index : Nat}

theorem find_write_entry (found : findPte m pgdir n = some (table, index)) (apart : table ≠ pgdir)
    (pte : Pte) : findPte (writeEntry m table index pte) pgdir n = some (table, index) := by
  rw [← found]
  exact find_pte_congr n (write_entry_page m table index pte pgdir apart.symm)

theorem absent_after_clear (pte : Pte) : has (pte &&& ~~~ pteP) pteP = false := by
  rw [has_present, BitVec.getLsbD_and, BitVec.getLsbD_not]
  simp [pteP]

def reclaimed (m : Mem) (table index : Nat) : Mem :=
  let pte := readEntry m table index
  writeEntry m table index
    (makePte (pteFrame pte) (pteFlags pte &&& ~~~ (pteCow ||| pteP) ||| pteW))

theorem reclaim_page_ok (inside : n < vpages) (found : findPte m pgdir n = some (table, index))
    (apart : table ≠ pgdir) :
    reclaimPage b m pgdir n table index = .ok (reclaimed m table index) := by
  have absent : has (readEntry (writeEntry m table index
      (readEntry m table index &&& ~~~ pteP)) table index) pteP = false := by
    rw [read_write_entry]
    exact absent_after_clear _
  simp only [reclaimPage]
  rw [map_page_existing _ _ inside (find_write_entry found apart _) absent, ok_bind]
  simp only [write_write_entry, reclaimed]

def copied (m : Mem) (mem : Nat) (rest : List Nat) (table index : Nat) : Mem :=
  let pte := readEntry m table index
  let m := writeEntry (setPage (pop m mem rest) mem (m.page (pteFrame pte))) table index
    (makePte mem (pteW ||| pteFlags pte))
  setRefCount m (pteFrame pte) (m.refCount (pteFrame pte) - 1)

theorem copy_page_ok {mem : Nat} {rest : List Nat} (counting : b.original = false)
    (inside : n < vpages) (found : findPte m pgdir n = some (table, index)) (apart : table ≠ pgdir)
    (list : m.freelist = mem :: rest) (notDir : mem ≠ pgdir) (notTable : mem ≠ table)
    (frame : pteFrame (readEntry m table index) < maxpages)
    (other : pteFrame (readEntry m table index) ≠ mem) :
    copyPage b m pgdir n table index (p2v (pteFrame (readEntry m table index) * pgsize)) =
    .ok (copied m mem rest table index) := by
  have content : setPage (memset (pop m mem rest) mem 0) mem
      ((memset (pop m mem rest) mem 0).page (pteFrame (readEntry m table index))) =
        setPage (pop m mem rest) mem (m.page (pteFrame (readEntry m table index))) := by
    rw [memset, set_page_other _ _ _ _ other, pop_page, setPage, setPage, setPage]
    simp only [update_idem]
  have same : readEntry (setPage (pop m mem rest) mem
      (m.page (pteFrame (readEntry m table index)))) table index = readEntry m table index :=
    read_entry_congr table index (set_page_other _ _ _ _ notTable.symm)
  have still : findPte (setPage (pop m mem rest) mem
      (m.page (pteFrame (readEntry m table index)))) pgdir n = some (table, index) := by
    rw [← found]
    exact find_pte_congr n (set_page_other _ _ _ _ notDir.symm)
  have absent (start : Mem) : has (readEntry (writeEntry start table index
      (readEntry m table index &&& ~~~ pteP)) table index) pteP = false := by
    rw [read_write_entry]
    exact absent_after_clear _
  simp only [copyPage]
  rw [kalloc_cons m mem counting list, ok_bind]
  simp only [content, same]
  rw [map_page_existing _ _ inside (find_write_entry still apart _) (absent _), ok_bind]
  simp only [write_write_entry, decRefCount, run_index_p2v _ frame, copied]
  rfl

theorem entry_write_entry (found : findPte m pgdir n = some (table, index)) (apart : table ≠ pgdir)
    (pte : Pte) : entry (writeEntry m table index pte) pgdir n = pte := by
  rw [entry_found _ _ _ (find_write_entry found apart pte), read_write_entry]

theorem writable_makes_accessible {frame : Nat} {perm : Pte}
    (mapped : entry m pgdir n = makePte frame perm) (user : perm.getLsbD 2 = true)
    (write : perm.getLsbD 1 = true) : Accessible m pgdir n true := by
  rw [Accessible, mapped, has_user, has_write, make_pte_bit 2 (by decide),
    make_pte_bit 1 (by decide), user, write]
  exact ⟨make_pte_present, rfl, fun _ => rfl⟩

theorem reclaimed_accessible (found : findPte m pgdir n = some (table, index))
    (apart : table ≠ pgdir) (user : has (readEntry m table index) pteU = true)
    (frame : pteFrame (readEntry m table index) < maxpages)
    (single : m.refCount (pteFrame (readEntry m table index)) = 1) :
    Accessible (reclaimed m table index) pgdir n true ∧
    Unshared (reclaimed m table index) pgdir n := by
  have mapped := entry_write_entry found apart
    (makePte (pteFrame (readEntry m table index))
      (pteFlags (readEntry m table index) &&& ~~~ (pteCow ||| pteP) ||| pteW))
  have perm : (pteFlags (readEntry m table index) &&& ~~~ (pteCow ||| pteP) ||| pteW).toNat <
      pgsize := small_or (small_and _ (pte_flags_small _)) (by decide)
  have inside := frame_in_space frame
  constructor
  · apply writable_makes_accessible mapped
    · rw [BitVec.getLsbD_or, BitVec.getLsbD_and, pte_flags_bit _ 2 (by decide), ← has_user, user]
      rfl
    · rw [BitVec.getLsbD_or]
      simp [pteW]
  · rw [Unshared, reclaimed, mapped, make_pte_frame inside perm]
    exact single

theorem copied_accessible {mem : Nat} {rest : List Nat}
    (found : findPte m pgdir n = some (table, index)) (apart : table ≠ pgdir) (notDir : mem ≠ pgdir)
    (memory : mem < maxpages) (unused : m.refCount mem = 0)
    (user : has (readEntry m table index) pteU = true)
    (other : pteFrame (readEntry m table index) ≠ mem) :
    Accessible (copied m mem rest table index) pgdir n true ∧
    Unshared (copied m mem rest table index) pgdir n := by
  have still : findPte (setPage (pop m mem rest) mem
      (m.page (pteFrame (readEntry m table index)))) pgdir n = some (table, index) := by
    rw [← found]
    exact find_pte_congr n (set_page_other _ _ _ _ notDir.symm)
  have mapped : entry (copied m mem rest table index) pgdir n =
      makePte mem (pteW ||| pteFlags (readEntry m table index)) :=
    entry_write_entry still apart _
  have perm : (pteW ||| pteFlags (readEntry m table index)).toNat < pgsize :=
    small_or (by decide) (pte_flags_small _)
  have inside := frame_in_space memory
  constructor
  · apply writable_makes_accessible mapped
    · rw [BitVec.getLsbD_or, pte_flags_bit _ 2 (by decide), (has_user _).symm.trans user,
        Bool.or_true]
    · rw [BitVec.getLsbD_or]
      simp [pteW]
  · rw [Unshared, mapped, make_pte_frame inside perm, copied, set_ref_count_other _ _ _ _ other.symm,
      write_entry_ref_count, set_page_ref_count, pop_ref_count, update_self, unused]
    rfl

end Results

section Service
variable {b : Build} {m : Mem} {proc : Proc} {faultAddr : Nat} {write : Bool}

theorem not_serviced {stop : Stop}
    (stopped : pgfltCase b m proc.pgdir faultAddr write = .error stop) :
    ¬ Serviced b m proc faultAddr write := by
  rintro ⟨after, proc', returned, -⟩
  rw [trapPgflt, stopped] at returned
  contradiction

theorem serviced_iff {after : Mem}
    (handled : pgfltCase b m proc.pgdir faultAddr write = .ok after) :
    Serviced b m proc faultAddr write ↔ ¬ (proc.killed = true ∧ proc.initproc = true) ∧
    (proc.killed = true ∨ (Accessible after proc.pgdir (faultAddr / pgsize) write ∧
    Unshared after proc.pgdir (faultAddr / pgsize))) := by
  rw [Serviced, trapPgflt, handled, ok_bind]
  split
  · rename_i refused
    simp [refused]
  · rename_i allowed
    simp only [Except.ok.injEq, Prod.mk.injEq]
    constructor
    · rintro ⟨_, _, ⟨rfl, rfl⟩, outcome⟩
      exact ⟨allowed, outcome⟩
    · rintro ⟨-, outcome⟩
      exact ⟨after, proc, ⟨rfl, rfl⟩, outcome⟩

theorem fault_page_inside (address : faultAddr < 2 ^ 32) : faultAddr / pgsize < vpages := by
  rw [vpages_value]
  simp only [pgsize]
  omega

theorem cow_fault_serviced_iff (counting : b.original = false) (address : faultAddr < 2 ^ 32)
    (apart : Apart m proc.pgdir (faultAddr / pgsize))
    (faulted : ¬ Accessible m proc.pgdir (faultAddr / pgsize) true) {table index : Nat}
    (found : findPte m proc.pgdir (faultAddr / pgsize) = some (table, index))
    (cow : has (readEntry m table index) pteCow = true)
    (present : has (readEntry m table index) pteP = true)
    (user : has (readEntry m table index) pteU = true) : Serviced b m proc faultAddr true ↔
    ¬ (proc.killed = true ∧ proc.initproc = true) ∧
    (m.refCount (pteFrame (readEntry m table index)) = 1 ∨
    (1 < m.refCount (pteFrame (readEntry m table index)) ∧ m.freelist ≠ []) ∨
    (m.refCount (pteFrame (readEntry m table index)) < 1 ∧ proc.killed = true)) := by
  have page := fault_page_inside address
  obtain ⟨notDir, notFree⟩ := apart.table table index found
  have same := entry_found m table index found
  have frame : pteFrame (readEntry m table index) < maxpages := by
    rw [← same]
    exact apart.inside (same ▸ present) (same ▸ user)
  have choice : pgfltCase b m proc.pgdir faultAddr true = _ := handler_cow found cow present user frame
  rw [cowFault] at choice
  split at choice
  · rename_i many
    cases list : m.freelist with
    | nil =>
      have stopped : ∃ stop, pgfltCase b m proc.pgdir faultAddr true = .error stop := by
        rw [choice, copyPage, kalloc, list]
        cases b.kallocNull with
        | false => exact ⟨_, rfl⟩
        | true => exact ⟨_, rfl⟩
      obtain ⟨stop, stopped⟩ := stopped
      constructor
      · intro serviced
        exact absurd serviced (not_serviced stopped)
      · rintro ⟨-, single | ⟨-, nonempty⟩ | ⟨few, -⟩⟩
        · omega
        · exact absurd rfl nonempty
        · omega
    | cons mem rest =>
      have member : mem ∈ m.freelist := by
        rw [list]
        exact .head _
      obtain ⟨memory, unused, notPgdir⟩ := apart.unused mem member
      have notTable : mem ≠ table := by
        rintro rfl
        exact notFree member
      have other : pteFrame (readEntry m table index) ≠ mem := by
        intro equal
        rw [equal, unused] at many
        omega
      rw [copy_page_ok counting page found notDir list notPgdir notTable frame other] at choice
      rw [serviced_iff choice]
      have unshared : Accessible (copied m mem rest table index) _ _ true ∧ _ :=
        copied_accessible found notDir notPgdir memory unused user other
      simp [unshared, many]
  · split at choice
    · rename_i single
      rw [reclaim_page_ok page found notDir] at choice
      rw [serviced_iff choice]
      simp [reclaimed_accessible found notDir user frame single, single]
    · rename_i few single
      rw [serviced_iff choice]
      have below : m.refCount (pteFrame (readEntry m table index)) < 1 := by omega
      simp [faulted, below, single, few]

/-- A fault of user code is serviced exactly if there is a page table for the address, the
process is not a killed `initproc`, and either the fault is a write to a copy-on-write page
that the user can reach and that can be copied or reclaimed, or the process was killed
before. -/
theorem user_fault_serviced_iff (counting : b.original = false) (address : faultAddr < 2 ^ 32)
    (apart : Apart m proc.pgdir (faultAddr / pgsize))
    (faulted : ¬ Accessible m proc.pgdir (faultAddr / pgsize) write) :
    Serviced b m proc faultAddr write ↔ Serviceable m proc faultAddr write := by
  cases found : findPte m proc.pgdir (faultAddr / pgsize) with
  | none =>
    have stopped : pgfltCase b m proc.pgdir faultAddr write = .error .nullPte := by
      cases write with
      | true => exact handler_no_table found
      | false => simp only [pgfltCase, uva2ka, found, Bool.false_eq_true, ↓reduceIte]; rfl
    constructor
    · intro serviced
      exact absurd serviced (not_serviced stopped)
    · rintro ⟨table, index, present, -⟩
      rw [found] at present
      contradiction
  | some slot =>
    obtain ⟨table, index⟩ := slot
    have unique : Serviceable m proc faultAddr write ↔
        ¬ (proc.killed = true ∧ proc.initproc = true) ∧
        if write then
          has (readEntry m table index) pteCow = true ∧
            has (readEntry m table index) pteP = true ∧
            has (readEntry m table index) pteU = true ∧
            (m.refCount (pteFrame (readEntry m table index)) = 1 ∨
              (1 < m.refCount (pteFrame (readEntry m table index)) ∧ m.freelist ≠ []) ∨
              (m.refCount (pteFrame (readEntry m table index)) < 1 ∧ proc.killed = true))
        else proc.killed = true := by
      simp only [Serviceable, found, Option.some.injEq, Prod.mk.injEq]
      constructor
      · rintro ⟨_, _, ⟨rfl, rfl⟩, rest⟩
        exact rest
      · intro rest
        exact ⟨table, index, ⟨rfl, rfl⟩, rest⟩
    rw [unique]
    cases write with
    | false =>
      have looked : pgfltCase b m proc.pgdir faultAddr false = .ok m := by
        simp only [pgfltCase, Bool.false_eq_true, ↓reduceIte]
        rw [uva2ka_found found, ok_bind]
      rw [serviced_iff looked]
      simp [faulted]
    | true =>
      have handler : pgfltCase b m proc.pgdir faultAddr true =
          pgflthandler b m proc.pgdir faultAddr := rfl
      simp only [↓reduceIte]
      by_cases cow : has (readEntry m table index) pteCow = true
      · by_cases reachable : has (readEntry m table index) pteP = true ∧
            has (readEntry m table index) pteU = true
        · rw [cow_fault_serviced_iff counting address apart faulted found cow reachable.1
            reachable.2]
          simp [cow, reachable]
        · have stopped := handler.trans (handler_hidden found cow reachable)
          constructor
          · intro serviced
            exact absurd serviced (not_serviced stopped)
          · rintro ⟨-, -, present, user, -⟩
            exact absurd ⟨present, user⟩ reachable
      · have stopped := handler.trans (handler_not_cow found (by simpa using cow))
        constructor
        · intro serviced
          exact absurd serviced (not_serviced stopped)
        · rintro ⟨-, isCow, -⟩
          exact absurd isCow cow

end Service

def sampleBuild : Build where
  original := false
  kallocNull := false
  dataFrame := 270
  endFrame := 300
  textNonempty := by decide
  dataNonempty := by decide
  endMapped := by decide

/-- Directory 1024 and page table 1025 map page 0 to frame 1026, shared with another
process; frame 1027 is free. -/
def sampleMem : Mem :=
  let zero : Mem :=
    { page := fun _ _ => 0
      freelist := [1027]
      refCount := fun frame => if frame = 1026 then 2 else if frame < 1026 then 1 else 0 }
  writeEntry (writeEntry zero 1024 0 (makePte 1025 (pteW ||| pteU))) 1025 0
    (makePte 1026 (pteU ||| pteCow))

def sampleProc : Proc := { pgdir := 1024, killed := false, initproc := false }

theorem sample_table (n : Nat) :
    findPte sampleMem 1024 n = if pdx n = 0 then some (1025, ptx n) else none := by
  have directory (index : Nat) : readEntry sampleMem 1024 index =
      if index = 0 then makePte 1025 (pteW ||| pteU) else 0 := by
    rw [sampleMem, read_write_entry_table _ _ _ _ _ _ (by decide)]
    by_cases first : index = 0
    · rw [if_pos first, first, read_write_entry]
    · rw [if_neg first, read_write_entry_index _ _ _ _ _ first]
      exact read_zero_page _ _ _ rfl
  rw [findPte, directory]
  by_cases first : pdx n = 0
  · simp only [if_pos first]
    rw [if_pos make_pte_present, make_pte_frame (by decide) (by decide)]
  · simp only [if_neg first]
    rfl

theorem sample_entry : readEntry sampleMem 1025 0 = makePte 1026 (pteU ||| pteCow) :=
  read_write_entry _ _ _ _

theorem sample_apart (n : Nat) (page : pdx n ≠ 0 ∨ n = 0) : Apart sampleMem 1024 n := by
  constructor
  · intro frame member
    rw [show sampleMem.freelist = [1027] from rfl, List.mem_singleton] at member
    subst member
    exact ⟨by decide, rfl, by decide⟩
  · intro table index found
    rw [sample_table] at found
    split at found
    · cases found
      exact ⟨by decide, by decide⟩
    · contradiction
  · intro present _
    rcases page with missing | rfl
    · rw [entry, sample_table, if_neg missing] at present
      contradiction
    · rw [entry_found _ 1025 0 (sample_table 0), sample_entry,
        make_pte_frame (by decide) (by decide)]
      decide

/-- A write to the shared page is serviced. -/
theorem shared_page_fault_serviced :
    Apart sampleMem 1024 (0 / pgsize) ∧ ¬ Accessible sampleMem 1024 (0 / pgsize) true ∧
      (Serviced sampleBuild sampleMem sampleProc 0 true ↔ Serviceable sampleMem sampleProc 0 true) ∧
      Serviceable sampleMem sampleProc 0 true := by
  have apart : Apart sampleMem 1024 (0 / pgsize) := sample_apart 0 (.inr rfl)
  have mapped : entry sampleMem 1024 (0 / pgsize) = makePte 1026 (pteU ||| pteCow) :=
    (entry_found _ 1025 0 (sample_table 0)).trans sample_entry
  have faulted : ¬ Accessible sampleMem 1024 (0 / pgsize) true := by
    rintro ⟨-, -, writable⟩
    have written := writable rfl
    rw [mapped, has_write, make_pte_bit 1 (by decide)] at written
    exact absurd written (by decide)
  refine ⟨apart, faulted, user_fault_serviced_iff rfl (by decide) apart faulted, ?_⟩
  refine ⟨1025, 0, sample_table 0, by decide, ?_⟩
  simp only [↓reduceIte, sample_entry, has_cow, has_user, make_pte_bit 11 (by decide),
    make_pte_bit 2 (by decide), make_pte_present, make_pte_frame (show 1026 < vpages by decide)
    (show (pteU ||| pteCow).toNat < pgsize by decide)]
  exact ⟨rfl, trivial, rfl, .inr (.inl ⟨by decide, by decide⟩)⟩

/-- A write above the process's page tables makes `uva2ka` follow a null pointer. -/
theorem unmapped_fault_not_serviced :
    ¬ ∀ m proc faultAddr write, faultAddr < 2 ^ 32 → Apart m proc.pgdir (faultAddr / pgsize) →
      ¬ Accessible m proc.pgdir (faultAddr / pgsize) write →
        Serviced sampleBuild m proc faultAddr write := by
  intro always
  have missing : findPte sampleMem 1024 (0x400000 / pgsize) = none := by
    rw [sample_table, if_neg (by decide)]
  have faulted : ¬ Accessible sampleMem 1024 (0x400000 / pgsize) true := by
    rintro ⟨present, -⟩
    rw [entry, missing] at present
    contradiction
  have serviced := always sampleMem sampleProc 0x400000 true (by decide)
    (sample_apart _ (.inl (by decide))) faulted
  have stopped : pgflthandler sampleBuild sampleMem 1024 0x400000 = .error .nullPte :=
    handler_no_table missing
  have refused : ¬ Serviced sampleBuild sampleMem sampleProc 0x400000 true := not_serviced stopped
  exact refused serviced

end Xv6Hacks.PageFault
