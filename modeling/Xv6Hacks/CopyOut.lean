import Xv6Hacks.PageMapping

/-!
# Copying to user memory

`copyout` translates page by page while it writes. Where the pages of the range are
frames of their own, apart from the directory and its page tables, the translation does not
change on the way: the bytes arrive where the directory says, and the call fails at the
first page that the user may not write to. A page without a page table is another matter,
since `uva2ka` looks at the entry without asking whether there is one.
-/

namespace Xv6Hacks.CopyOut

open AddressSpace ByteBuffers Kalloc Outcomes PageMapping PageOwnership PageTables

variable {m after : Mem} {pgdir va : Nat} {bytes : List Byte}

/-- A page that `uva2ka` translates. -/
def Open (m : Mem) (pgdir n : Nat) : Prop :=
  has (entry m pgdir n) pteP = true ∧ has (entry m pgdir n) pteU = true

def place (m : Mem) (pgdir a : Nat) : Nat × Nat :=
  (pteFrame (entry m pgdir (a / pgsize)), a % pgsize)

/-- The user pages of the range are real frames, different ones for different pages, and
none of them is part of the translation. -/
structure Separate (m : Mem) (pgdir va len : Nat) : Prop where
  real : ∀ j, j < len → Open m pgdir ((va + j) / pgsize) → (place m pgdir (va + j)).1 < maxpages
  notDir : ∀ j, j < len → Open m pgdir ((va + j) / pgsize) → (place m pgdir (va + j)).1 ≠ pgdir
  notTable : ∀ j i, j < len → i < npdentries → Open m pgdir ((va + j) / pgsize) →
    tableAt m pgdir i ≠ some (place m pgdir (va + j)).1
  distinct : ∀ i j, i < len → j < len → Open m pgdir ((va + i) / pgsize) →
    Open m pgdir ((va + j) / pgsize) → (place m pgdir (va + i)).1 = (place m pgdir (va + j)).1 →
    (va + i) / pgsize = (va + j) / pgsize

/-- The bytes are where the directory sends them, and nothing else has changed. -/
structure Copied (m : Mem) (pgdir va : Nat) (bytes : List Byte) (after : Mem) : Prop where
  arrived : ∀ j, j < bytes.length →
    after.page (place m pgdir (va + j)).1 (place m pgdir (va + j)).2 = bytes.getD j 0
  others : ∀ frame off, (∀ j, j < bytes.length → place m pgdir (va + j) ≠ (frame, off)) →
    after.page frame off = m.page frame off
  freelist : after.freelist = m.freelist
  refCount : after.refCount = m.refCount

structure Steady (m : Mem) (pgdir : Nat) (after : Mem) : Prop where
  tables : ∀ i, tableAt after pgdir i = tableAt m pgdir i
  entries : ∀ n, entry after pgdir n = entry m pgdir n

theorem steady_set_page {frame : Nat} (notDir : frame ≠ pgdir)
    (notTable : ∀ i, i < npdentries → tableAt m pgdir i ≠ some frame) (content : Buffer) :
    Steady m pgdir (setPage m frame content) := by
  have tables (i : Nat) : tableAt (setPage m frame content) pgdir i = tableAt m pgdir i := by
    rw [tableAt, tableAt, read_entry_congr pgdir i (set_page_other m frame pgdir content notDir.symm)]
  refine ⟨tables, fun n => ?_⟩
  cases found : tableAt m pgdir (pdx n) with
  | none => rw [entry_no_table found, entry_no_table ((tables _).trans found)]
  | some table =>
    have apart : table ≠ frame := fun same => notTable _ (pdx_lt n) (found.trans (by rw [same]))
    rw [entry_table found, entry_table ((tables _).trans found)]
    exact read_entry_congr table _ (set_page_other m frame table content apart)

theorem Steady.open (steady : Steady m pgdir after) (n : Nat) :
    Open after pgdir n ↔ Open m pgdir n := by
  rw [Open, Open, steady.entries]

theorem Steady.place (steady : Steady m pgdir after) (a : Nat) :
    place after pgdir a = CopyOut.place m pgdir a := by
  rw [CopyOut.place, CopyOut.place, steady.entries]

theorem Separate.rest {len : Nat} (separate : Separate m pgdir va len) (steady : Steady m pgdir after)
    {n : Nat} (part : n ≤ len) : Separate after pgdir (va + n) (len - n) := by
  refine ⟨fun j inside => ?_, fun j inside => ?_, fun j i inside => ?_, fun i j inI inJ => ?_⟩
  · rw [Nat.add_assoc, steady.open, steady.place]
    exact separate.real (n + j) (by omega)
  · rw [Nat.add_assoc, steady.open, steady.place]
    exact separate.notDir (n + j) (by omega)
  · rw [Nat.add_assoc, steady.open, steady.place, steady.tables]
    exact separate.notTable (n + j) i (by omega)
  · rw [Nat.add_assoc, Nat.add_assoc, steady.open, steady.open, steady.place, steady.place]
    exact separate.distinct (n + i) (n + j) (by omega) (by omega)

theorem uva2ka_cases (m : Mem) (pgdir n : Nat) :
    (tableAt m pgdir (pdx n) = none ∧ uva2ka m pgdir n = .error .nullPte) ∨
    (tableAt m pgdir (pdx n) ≠ none ∧ ¬ Open m pgdir n ∧ uva2ka m pgdir n = .ok 0) ∨
    (Open m pgdir n ∧ uva2ka m pgdir n = .ok (p2v (pteFrame (entry m pgdir n) * pgsize))) := by
  rw [uva2ka, find_pte_table]
  cases found : tableAt m pgdir (pdx n) with
  | none => exact .inl ⟨rfl, rfl⟩
  | some table =>
    right
    simp only [Option.map_some, ← entry_table found, Open]
    by_cases present : has (entry m pgdir n) pteP = true
    · by_cases user : has (entry m pgdir n) pteU = true
      · simp [present, user]
      · simp [present, user]
    · simp [present]

theorem copyout_wrap (m : Mem) (pgdir va : Nat) (bytes : List Byte) :
    copyout m pgdir (va % 2 ^ 32) bytes = copyout m pgdir va bytes := by
  have page : uva2ka m pgdir (va % 2 ^ 32 / pgsize) = uva2ka m pgdir (va / pgsize) := by
    have directory : pdx (va % 2 ^ 32 / pgsize) = pdx (va / pgsize) := by
      simp only [pdx, pgsize, nptentries, npdentries]
      omega
    have column : ptx (va % 2 ^ 32 / pgsize) = ptx (va / pgsize) := by
      simp only [ptx, pgsize, nptentries]
      omega
    rw [uva2ka, uva2ka, find_pte_table, find_pte_table, directory, column]
  have off : va % 2 ^ 32 % pgsize = va % pgsize := by
    simp only [pgsize]
    omega
  have next : (va % 2 ^ 32 / pgsize * pgsize + pgsize) % 2 ^ 32 =
      (va / pgsize * pgsize + pgsize) % 2 ^ 32 := by
    simp only [pgsize]
    omega
  rw [copyout, copyout.eq_def m pgdir va, page, off, next]

theorem copyout_step (nonempty : bytes ≠ []) : copyout m pgdir va bytes = (do
      let pa0 ← uva2ka m pgdir (va / pgsize)
      if pa0 = 0 then .ok (false, m) else
        let n := min bytes.length (pgsize - va % pgsize)
        let frame := v2p pa0 / pgsize
        copyout (setPage m frame (copyInto (m.page frame) (va % pgsize) (bytes.take n))) pgdir
          (va + n) (bytes.drop n)) := by
  rw [copyout, if_neg nonempty]
  cases uva2ka m pgdir (va / pgsize) with
  | error stop => simp only [bind, Except.bind]
  | ok pa0 =>
    simp only [ok_bind]
    split
    · rfl
    · rw [copyout_wrap]
      by_cases last : bytes.length ≤ pgsize - va % pgsize
      · rw [Nat.min_eq_left last, List.drop_length, copyout, copyout, if_pos rfl, if_pos rfl]
      · have next : va / pgsize * pgsize + pgsize = va + (pgsize - va % pgsize) := by
          simp only [pgsize]
          omega
        rw [Nat.min_eq_right (by omega), next]

def Ends (m : Mem) (pgdir va : Nat) (bytes : List Byte) (result : Bool × Mem) : Prop :=
  if result.1 then
    (∀ j, j < bytes.length → Open m pgdir ((va + j) / pgsize)) ∧ Copied m pgdir va bytes result.2
  else ∃ j, j < bytes.length ∧ (∀ i, i < j → Open m pgdir ((va + i) / pgsize)) ∧
    tableAt m pgdir (pdx ((va + j) / pgsize)) ≠ none ∧ ¬ Open m pgdir ((va + j) / pgsize)

/-- The first page that is not open has no page table. -/
def Lost (m : Mem) (pgdir va len : Nat) : Prop :=
  ∃ j, j < len ∧ (∀ i, i < j → Open m pgdir ((va + i) / pgsize)) ∧
    tableAt m pgdir (pdx ((va + j) / pgsize)) = none

theorem Copied.append {n : Nat} {mid : Mem} (separate : Separate m pgdir va bytes.length)
    (n_eq : n = min bytes.length (pgsize - va % pgsize))
    (opened : ∀ j, j < bytes.length → Open m pgdir ((va + j) / pgsize))
    (steady : Steady m pgdir mid) (first : mid = setPage m (place m pgdir va).1
    (copyInto (m.page (place m pgdir va).1) (va % pgsize) (bytes.take n)))
    (rest : Copied mid pgdir (va + n) (bytes.drop n) after) : Copied m pgdir va bytes after := by
  have room := page_room va
  have length : (bytes.take n).length = n := by
    rw [List.length_take]
    omega
  have dropped : (bytes.drop n).length = bytes.length - n := List.length_drop
  have same (j : Nat) (inside : j < n) : place m pgdir (va + j) =
      ((place m pgdir va).1, va % pgsize + j) := by
    have page : (va + j) / pgsize = va / pgsize := by
      simp only [pgsize] at room n_eq ⊢
      omega
    have off : (va + j) % pgsize = va % pgsize + j := by
      simp only [pgsize] at room n_eq ⊢
      omega
    rw [place, place, page, off]
  have later (j : Nat) : place mid pgdir (va + n + j) = place m pgdir (va + (n + j)) := by
    rw [steady.place, Nat.add_assoc]
  have written (frame off : Nat) : mid.page frame off =
      if frame = (place m pgdir va).1 ∧ va % pgsize ≤ off ∧ off < va % pgsize + n then
        bytes.getD (off - va % pgsize) 0
      else m.page frame off := by
    rw [first]
    by_cases here : frame = (place m pgdir va).1
    · subst here
      rw [set_page_same, copyInto, length]
      split
      next inside =>
        rw [if_pos ⟨rfl, inside⟩]
        simp only [List.getD_eq_getElem?_getD, List.getElem?_take]
        rw [if_pos (by omega)]
      next outside => rw [if_neg fun both => outside both.2]
    · rw [set_page_other _ _ _ _ here, if_neg fun both => here both.1]
  refine ⟨fun j inside => ?_, fun frame off missed => ?_, ?_, ?_⟩
  · by_cases early : j < n
    · -- no later byte lands on the first page's frame
      rw [same j early, rest.others, written, if_pos ⟨rfl, by omega, by omega⟩]
      · congr 1
        omega
      · intro i bound equal
        rw [later i] at equal
        have pages := separate.distinct 0 (n + i) (by omega) (by omega) (opened 0 (by omega))
          (opened (n + i) (by omega)) (congrArg Prod.fst equal).symm
        simp only [pgsize] at room n_eq pages dropped bound
        omega
    · have moved := rest.arrived (j - n) (by omega)
      rw [later, show n + (j - n) = j by omega] at moved
      rw [moved]
      simp only [List.getD_eq_getElem?_getD, List.getElem?_drop]
      rw [show n + (j - n) = j by omega]
  · rw [rest.others frame off, written, if_neg]
    · rintro ⟨here, lower, upper⟩
      refine missed (off - va % pgsize) (by omega) ?_
      rw [same _ (by omega), here]
      congr 1
      omega
    · intro i bound
      rw [later i]
      exact missed (n + i) (by omega)
  · rw [rest.freelist, first, set_page_freelist]
  · rw [rest.refCount, first, set_page_ref_count]

theorem copyout_ends (separate : Separate m pgdir va bytes.length) :
    Yields (copyout m pgdir va bytes) (Ends m pgdir va bytes)
    (fun stop => stop = .nullPte ∧ Lost m pgdir va bytes.length) := by
  -- By induction on the number of bytes left; every round copies up to the end of a page.
  induction length : bytes.length using Nat.strong_induction_on generalizing m va bytes with
  | h count ih =>
    by_cases empty : bytes = []
    · rw [copyout, if_pos empty, empty]
      refine ⟨fun _ inside => absurd inside (Nat.not_lt_zero _), fun _ inside => ?_,
        fun _ _ _ => rfl, rfl, rfl⟩
      exact absurd inside (Nat.not_lt_zero _)
    · have some' := List.length_pos_iff.mpr empty
      have room := page_room va
      rw [copyout_step empty]
      rcases uva2ka_cases m pgdir (va / pgsize) with ⟨none, looked⟩ | ⟨table, closed, looked⟩ |
        ⟨opened, looked⟩
      · rw [looked]
        exact ⟨rfl, 0, by omega, fun _ early => absurd early (Nat.not_lt_zero _), none⟩
      · rw [looked]
        exact ⟨0, some', fun _ early => absurd early (Nat.not_lt_zero _), table, closed⟩
      · have real : pteFrame (entry m pgdir (va / pgsize)) < maxpages := separate.real 0 some' opened
        rw [looked, ok_bind, if_neg (p2v_ne_zero _ real), v2p_p2v _ real]
        dsimp only
        generalize n_eq : min bytes.length (pgsize - va % pgsize) = n
        have steady := @steady_set_page m pgdir (place m pgdir va).1 (separate.notDir 0 some' opened)
          (fun i inside => separate.notTable 0 i some' inside opened)
          (copyInto (m.page (place m pgdir va).1) (va % pgsize) (bytes.take n))
        change Yields (copyout (setPage m (place m pgdir va).1 (copyInto
          (m.page (place m pgdir va).1) (va % pgsize) (bytes.take n))) pgdir (va + n) _) _ _
        generalize written : setPage m _ _ = mid at steady ⊢
        have dropped : (bytes.drop n).length = bytes.length - n := List.length_drop
        have first (j : Nat) (early : j < n) : Open m pgdir ((va + j) / pgsize) := by
          rw [show (va + j) / pgsize = va / pgsize by simp only [pgsize] at room n_eq ⊢; omega]
          exact opened
        have rest (j : Nat) : Open mid pgdir ((va + n + j) / pgsize) ↔
            Open m pgdir ((va + (n + j)) / pgsize) := by
          rw [steady.open, Nat.add_assoc]
        have all (k : Nat) (later : ∀ i, i < k → Open m pgdir ((va + (n + i)) / pgsize)) (j : Nat)
            (early : j < n + k) : Open m pgdir ((va + j) / pgsize) := by
          by_cases here : j < n
          · exact first j here
          · have moved := later (j - n) (by omega)
            rwa [show n + (j - n) = j by omega] at moved
        refine (ih _ (by omega) (dropped ▸ separate.rest steady (by omega)) dropped).mono ?_ ?_
        · rintro ⟨copied, final⟩ ends
          cases copied with
          | true =>
            have opens := all (bytes.length - n) fun i inside =>
              (rest i).mp (ends.1 i (by omega))
            rw [Nat.add_sub_cancel' (by omega)] at opens
            exact ⟨opens, ends.2.append separate n_eq.symm opens steady written.symm⟩
          | false =>
            obtain ⟨j, inside, before, table, closed⟩ := ends
            refine ⟨n + j, by omega, all j fun i early => (rest i).mp (before i early), ?_, ?_⟩
            · rwa [steady.tables, Nat.add_assoc] at table
            · rwa [rest] at closed
        · rintro stop ⟨null, j, inside, before, missing⟩
          refine ⟨null, n + j, by omega, all j fun i early => (rest i).mp (before i early), ?_⟩
          rwa [steady.tables, Nat.add_assoc] at missing

/-- `copyout` returns 0 with the bytes in place and nothing else changed, or -1 because the
user may not write to some page of the range. -/
def Exact (m : Mem) (pgdir va : Nat) (bytes : List Byte) : Prop :=
  Yields (copyout m pgdir va bytes)
    (fun result => if result.1 then Copied m pgdir va bytes result.2
      else ∃ j, j < bytes.length ∧ ¬ Open m pgdir ((va + j) / pgsize))
    (fun _ => False)

theorem not_open_of_missing {n : Nat} (missing : tableAt m pgdir (pdx n) = none) :
    ¬ Open m pgdir n := by
  rw [Open, entry_no_table missing]
  decide

theorem copyout_exact_iff (m : Mem) (pgdir va : Nat) (bytes : List Byte)
    (separate : Separate m pgdir va bytes.length) :
    Exact m pgdir va bytes ↔ ¬ Lost m pgdir va bytes.length := by
  have ends := copyout_ends separate
  constructor
  · rintro exact ⟨j, inside, before, missing⟩
    rw [Exact] at exact
    cases returned : copyout m pgdir va bytes with
    | error stop =>
      rw [returned] at exact
      exact exact
    | ok result =>
      rw [returned] at ends
      obtain ⟨copied, final⟩ := result
      cases copied with
      | true => exact not_open_of_missing missing (ends.1 j inside)
      | false =>
        obtain ⟨k, -, openBefore, table, closed⟩ := ends
        rcases Nat.lt_trichotomy j k with early | same | late
        · exact not_open_of_missing missing (openBefore j early)
        · exact table (same ▸ missing)
        · exact closed (before k late)
  · intro kept
    refine ends.mono (fun result ended => ?_) fun stop lost => kept lost.2
    rw [Ends] at ended
    split
    next copied =>
      rw [if_pos copied] at ended
      exact ended.2
    next failed =>
      rw [if_neg failed] at ended
      obtain ⟨j, inside, -, -, closed⟩ := ended
      exact ⟨j, inside, closed⟩

theorem shared_page_copied : Exact PageFault.sampleMem 1024 0 [7] := by
  have table (index : Nat) : tableAt PageFault.sampleMem 1024 (pdx index) =
      if pdx index = 0 then some 1025 else none := by
    have found := PageFault.sample_table index
    rw [find_pte_table] at found
    split at found <;> rename_i row
    · rw [if_pos row]
      simpa using found
    · rw [if_neg row]
      simpa using found
  have mapped : entry PageFault.sampleMem 1024 0 = makePte 1026 (pteU ||| pteCow) :=
    (entry_table (table 0)).trans PageFault.sample_entry
  have frame : (place PageFault.sampleMem 1024 0).1 = 1026 := by
    rw [place, Nat.zero_div, mapped, make_pte_frame (by decide) (by decide)]
  have first (j : Nat) (inside : j < [(7 : Byte)].length) : j = 0 := Nat.lt_one_iff.mp inside
  refine (copyout_exact_iff _ _ _ _ ⟨?_, ?_, ?_, ?_⟩).mpr ?_
  · intro j inside _
    rw [first j inside, frame]
    decide
  · intro j inside _
    rw [first j inside, frame]
    decide
  · intro j i inside bound _ here
    have row : pdx (i * nptentries) = i := by
      simp only [pdx, nptentries, npdentries] at bound ⊢
      omega
    rw [first j inside, frame, ← row, table] at here
    split at here <;> simp at here
  · intro i j inI inJ _ _ _
    rw [first i inI, first j inJ]
  · rintro ⟨j, inside, -, missing⟩
    rw [first j inside, table, if_pos (by decide)] at missing
    cases missing

theorem copyout_without_table : ¬ Exact emptyMem 1024 0 [7] := by
  have looked : uva2ka emptyMem 1024 (0 / pgsize) = .error .nullPte := by
    rw [uva2ka, find_pte_table, empty_mem_tables]
    rfl
  rw [Exact, copyout, if_neg (by decide), looked]
  exact id

end Xv6Hacks.CopyOut
