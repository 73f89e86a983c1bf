import Xv6Hacks.PageFault
import Xv6Hacks.PageOwnership

/-!
# Page tables as a map

A directory whose page tables are different pages is a map from page numbers to entries:
`walkpgdir` changes no entry, also when it allocates a page table, and writing through
what it returns changes one. `mappages` then updates the map on its range.
-/

namespace Xv6Hacks.PageMapping

open Kalloc Outcomes PageOwnership PageTables

variable {b : Build} {m : Mem} {pgdir n frame : Nat} {rest : List Nat} {perm : Pte}

def tableAt (m : Mem) (pgdir index : Nat) : Option Nat :=
  let pde := readEntry m pgdir index
  if has pde pteP then some (pteFrame pde) else none

theorem find_pte_table (m : Mem) (pgdir n : Nat) :
    findPte m pgdir n = (tableAt m pgdir (pdx n)).map (·, ptx n) := by
  simp only [findPte, tableAt]
  split
  · rfl
  · rfl

theorem entry_table {table : Nat} (here : tableAt m pgdir (pdx n) = some table) :
    entry m pgdir n = readEntry m table (ptx n) := by
  rw [entry, find_pte_table, here]
  rfl

theorem entry_no_table (missing : tableAt m pgdir (pdx n) = none) : entry m pgdir n = 0 := by
  rw [entry, find_pte_table, missing]
  rfl

/-- The directory, its page tables and the free pages are different pages. -/
structure Tabled (m : Mem) (pgdir : Nat) : Prop where
  distinct : ∀ i j table, i < npdentries → j < npdentries → tableAt m pgdir i = some table →
    tableAt m pgdir j = some table → i = j
  apart : ∀ i table, i < npdentries → tableAt m pgdir i = some table →
    table ≠ pgdir ∧ table ∉ m.freelist
  dir : pgdir ∉ m.freelist
  once : m.freelist.Nodup
  real : ∀ frame ∈ m.freelist, frame < maxpages

def take (b : Build) (m : Mem) (frame : Nat) (rest : List Nat) : Mem :=
  if b.original then { m with freelist := rest } else pop m frame rest

@[simp] theorem take_page : (take b m frame rest).page = m.page := by
  rw [take]
  split
  · rfl
  · rfl

@[simp] theorem take_freelist : (take b m frame rest).freelist = rest := by
  rw [take]
  split
  · rfl
  · rfl

def link (b : Build) (m : Mem) (pgdir n frame : Nat) (rest : List Nat) : Mem :=
  writeEntry (memset (take b m frame rest) frame 0) pgdir (pdx n) (tablePte frame)

section Linking
variable (tabled : Tabled m pgdir) (list : m.freelist = frame :: rest)
include tabled list

theorem head_apart : frame ∈ m.freelist ∧ frame ≠ pgdir := by
  have member : frame ∈ m.freelist := by
    rw [list]
    exact .head _
  exact ⟨member, fun same => tabled.dir (same ▸ member)⟩

theorem link_table_at (i : Nat) : tableAt (link b m pgdir n frame rest) pgdir i =
      if i = pdx n then some frame else tableAt m pgdir i := by
  have head := head_apart tabled list
  have cleared : (memset (take b m frame rest) frame 0).page pgdir = m.page pgdir := by
    rw [memset, set_page_other _ _ _ _ head.2.symm, take_page]
  by_cases here : i = pdx n
  · have word : readEntry (link b m pgdir n frame rest) pgdir i = tablePte frame := by
      rw [here, link, read_write_entry]
    simp only [tableAt, word, if_pos here, table_pte_present, ↓reduceIte,
      table_pte_frame (tabled.real frame head.1)]
  · have word : readEntry (link b m pgdir n frame rest) pgdir i = readEntry m pgdir i := by
      rw [link, read_write_entry_index _ _ _ _ _ here, read_entry_congr pgdir i cleared]
    simp only [tableAt, word, if_neg here]

theorem Tabled.link (n : Nat) : Tabled (link b m pgdir n frame rest) pgdir := by
  have tables := @link_table_at b m pgdir n frame rest tabled list
  have free : (PageMapping.link b m pgdir n frame rest).freelist = rest := take_freelist
  have head := head_apart tabled list
  have once := tabled.once
  rw [list, List.nodup_cons] at once
  have later (other : Nat) (member : other ∈ rest) : other ∈ m.freelist := by
    rw [list]
    exact .tail frame member
  refine ⟨fun i j table inI inJ atI atJ => ?_, fun i table inI atI => ?_, ?_, ?_, ?_⟩
  · rw [tables] at atI atJ
    split at atI <;> split at atJ
    next hereI hereJ => rw [hereI, hereJ]
    next =>
      cases atI
      exact absurd head.1 (tabled.apart j frame inJ atJ).2
    next =>
      cases atJ
      exact absurd head.1 (tabled.apart i frame inI atI).2
    next => exact tabled.distinct i j table inI inJ atI atJ
  · rw [free]
    rw [tables] at atI
    split at atI
    next =>
      cases atI
      exact ⟨head.2, once.1⟩
    next =>
      have apart := tabled.apart i table inI atI
      exact ⟨apart.1, fun member => apart.2 (later table member)⟩
  · rw [free]
    exact fun member => tabled.dir (later pgdir member)
  · rw [free]
    exact once.2
  · rw [free]
    exact fun other member => tabled.real other (later other member)

end Linking

section Writing
variable {table : Nat} (tabled : Tabled m pgdir) (found : tableAt m pgdir (pdx n) = some table)
include tabled found

theorem write_table_at (pte : Pte) (i : Nat) :
    tableAt (writeEntry m table (ptx n) pte) pgdir i = tableAt m pgdir i := by
  have apart := (tabled.apart (pdx n) table (pdx_lt n) found).1
  rw [tableAt, tableAt, read_write_entry_table _ _ _ _ _ _ apart.symm]

theorem Tabled.write (pte : Pte) : Tabled (writeEntry m table (ptx n) pte) pgdir := by
  have tables := write_table_at tabled found pte
  refine ⟨fun i j other => ?_, fun i other => ?_, tabled.dir, tabled.once, tabled.real⟩
  · rw [tables, tables]
    exact tabled.distinct i j other
  · rw [tables]
    exact tabled.apart i other

theorem entry_write (pte : Pte) {k : Nat} (inside : n < vpages) (other : k < vpages) :
    entry (writeEntry m table (ptx n) pte) pgdir k = if k = n then pte else entry m pgdir k := by
  have tables := write_table_at tabled found pte (pdx k)
  have index (i : Nat) (page : i < vpages) : i = pdx i * nptentries + ptx i := by
    rw [vpages_value] at page
    simp only [pdx, ptx, nptentries, npdentries]
    omega
  split
  next here =>
    rw [here] at tables ⊢
    rw [entry_table (tables.trans found), read_write_entry]
  next different =>
    cases at' : tableAt m pgdir (pdx k) with
    | none => rw [entry_no_table (tables.trans at'), entry_no_table at']
    | some otherTable =>
      rw [entry_table (tables.trans at'), entry_table at']
      by_cases same : otherTable = table
      · subst same
        have row := tabled.distinct _ _ _ (pdx_lt k) (pdx_lt n) at' found
        refine read_write_entry_index _ _ _ _ _ fun column => different ?_
        rw [index k other, index n inside, row, column]
      · exact read_write_entry_table _ _ _ _ _ _ same

end Writing

def emptyMem : Mem := { page := fun _ _ => 0, freelist := [1027], refCount := fun _ => 0 }

theorem empty_mem_tables (index : Nat) : tableAt emptyMem 1024 index = none := by
  simp only [tableAt, read_zero_page emptyMem 1024 index rfl]
  rfl

end Xv6Hacks.PageMapping
