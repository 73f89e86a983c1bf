import Xv6Hacks.PageFault
import Xv6Hacks.SpaceChanges

/-!
# Copy-on-write faults and ownership

What `pgflthandler` does to a memory whose pages have their roles: the page at the
faulting address becomes a private and writable one with the same contents, and nothing
else changes.
-/

namespace Xv6Hacks.FaultOwnership

open Function
open Kalloc Outcomes PageFault PageOwnership PageTables ReferenceCounts SpaceGrowth
open UserSpaces

structure Faulted (b : Build) (κ : Nat → Kind) (m : Mem) (pgdir n : Nat) (κ' : Nat → Kind)
    (m' : Mem) : Prop where
  owned : Owned b κ' none m'
  grows : Grows pgdir κ m κ' m'
  entries : ∀ k, k < vpages → k ≠ n → entry m' pgdir k = entry m pgdir k
  contents : m'.page (pteFrame (entry m' pgdir n)) = m.page (pteFrame (entry m pgdir n))
  accessible : Accessible m' pgdir n true
  unshared : Unshared m' pgdir n

def filled (m : Mem) (mem : Nat) (rest : List Nat) (pte : Pte) : Mem :=
  setPage (pop m mem rest) mem (m.page (pteFrame pte))

def replaced (m : Mem) (mem : Nat) (rest : List Nat) (table index : Nat) (pte : Pte) : Mem :=
  writeEntry (filled m mem rest pte) table index (makePte mem (pteW ||| pteFlags pte))

theorem replaced_ref_count (m : Mem) {mem other : Nat} (rest : List Nat) (table index : Nat)
    (pte : Pte) (different : other ≠ mem) :
    (replaced m mem rest table index pte).refCount other = m.refCount other := by
  rw [replaced, write_entry_ref_count, filled, set_page_ref_count, pop_ref_count,
    update_of_ne different]

section Faults
variable {b : Build} {κ : Nat → Kind} {m : Mem} {pgdir n table : Nat}
variable (owned : Owned b κ none m) (label : κ table = .pgtab pgdir (pdx n)) (page : n < userPages)
  (found : findPte m pgdir n = some (table, ptx n)) (present : has (entry m pgdir n) pteP = true)
  (user : has (entry m pgdir n) pteU = true)
include owned label page found present user

theorem reclaimed_faulted (single : m.refCount (pteFrame (entry m pgdir n)) = 1) :
    Faulted b κ m pgdir n κ (reclaimed m table (ptx n)) := by
  have dir : κ pgdir = .pgdir := (owned.tables table pgdir (pdx n) label).1
  have apart : table ≠ pgdir := (dir_ne_table dir label).symm
  have isUser := owned.present_user dir page present
  have inside : pteFrame (entry m pgdir n) < maxpages := owned.bound (by simp [isUser])
  have here : entry m pgdir n = readEntry m table (ptx n) := entry_found m table _ found
  have perm : (pteFlags (readEntry m table (ptx n)) &&& ~~~ (pteCow ||| pteP) ||| pteW).toNat <
      pgsize := small_or (small_and _ (pte_flags_small _)) (by decide)
  have frame := make_pte_frame (frame_in_space inside) perm
  have space := user_page_inside page
  rw [here] at inside single user
  obtain ⟨accessible, unshared⟩ := reclaimed_accessible found apart user inside single
  rw [← here] at frame
  have after : entry (reclaimed m table (ptx n)) pgdir n =
      makePte (pteFrame (entry m pgdir n))
        (pteFlags (entry m pgdir n) &&& ~~~ (pteCow ||| pteP) ||| pteW) := by
    rw [reclaimed, entry_write_entry found apart, here]
  constructor
  case owned =>
    rw [reclaimed, ← here]
    apply owned.set_user_entry label page
    · right
      rw [frame]
      exact ⟨make_pte_present, isUser⟩
    · exact owned.held
    · intro other
      rw [pteTarget, if_pos make_pte_present, frame, pteTarget, if_pos present]
  case grows => exact grows_write_entry owned label _ _
  case entries =>
    intro k inSpace other
    rw [reclaimed, owned.entry_write label space _ dir inSpace, if_neg]
    rintro ⟨-, same⟩
    exact other same
  case contents =>
    rw [after, frame]
    apply write_entry_page
    rintro same
    rw [same, label] at isUser
    contradiction
  case accessible => exact accessible
  case unshared => exact unshared

theorem copied_faulted {mem : Nat} {rest : List Nat} (list : m.freelist = mem :: rest)
    (shared : 1 < m.refCount (pteFrame (entry m pgdir n))) :
    Faulted b κ m pgdir n (update κ mem .user) (copied m mem rest table (ptx n)) := by
  have dir : κ pgdir = .pgdir := (owned.tables table pgdir (pdx n) label).1
  have apart : table ≠ pgdir := (dir_ne_table dir label).symm
  have isUser := owned.present_user dir page present
  have here : entry m pgdir n = readEntry m table (ptx n) := entry_found m table _ found
  have space := user_page_inside page
  have wasFree := owned.head_free list
  have role {frame : Nat} {kind : Kind} (is : κ frame = kind) (used : kind ≠ .free) :
      frame ≠ mem := by
    rintro rfl
    exact used (is.symm.trans wasFree)
  have notDir : mem ≠ pgdir := (role dir (by simp)).symm
  have other := role isUser (by simp)
  have memory : mem < maxpages := owned.bound (by simp [wasFree])
  have unused : m.refCount mem = 0 := by
    rw [owned.counted mem (by simp [wasFree]), wasFree]
    rfl
  have perm : (pteW ||| pteFlags (entry m pgdir n)).toNat < pgsize :=
    small_or (by decide) (pte_flags_small _)
  have service : Accessible (copied m mem rest table (ptx n)) pgdir n true ∧
      Unshared (copied m mem rest table (ptx n)) pgdir n := by
    rw [here] at user other
    exact copied_accessible found apart notDir memory unused user other
  -- The page is taken, filled and mapped in the place of the old one.
  have taken : Owned b (update κ mem .user) (some mem)
      (filled m mem rest (entry m pgdir n)) :=
    (owned.take list (.inr ⟨rfl, rfl, rfl⟩)).set_page (by rw [update_self]; rfl) _
  have label' : update κ mem .user table = .pgtab pgdir (pdx n) := by
    rw [update_of_ne (role label (by simp)), label]
  have dir' : update κ mem .user pgdir = .pgdir := by
    rw [update_of_ne notDir.symm, dir]
  have first : Grows pgdir κ m (update κ mem .user)
      (filled m mem rest (entry m pgdir n)) :=
    grows_take owned list (.inl rfl) _
  have same : ∀ k, entry (filled m mem rest (entry m pgdir n))
      pgdir k = entry m pgdir k := by
    apply owned.entry_congr dir
    · exact set_page_other _ _ _ _ notDir.symm
    · exact fun _ _ isTable => set_page_other _ _ _ _ (role isTable (by simp))
  have target := pte_target_make memory perm
  have written : Owned b (update κ mem .user) (some (pteFrame (entry m pgdir n)))
      (replaced m mem rest table (ptx n) (entry m pgdir n)) := by
    apply taken.set_user_entry label' page
    · right
      rw [make_pte_frame (frame_in_space memory) perm, update_self]
      exact ⟨make_pte_present, rfl⟩
    · rintro frame ⟨⟩
      rw [update_of_ne other, isUser]
    · intro frame
      rw [target, same n, pteTarget, if_pos present]
      exact Nat.add_comm _ _
  have still : 0 < mappings (update κ mem .user)
      (replaced m mem rest table (ptx n) (entry m pgdir n)) (pteFrame (entry m pgdir n)) := by
    have count := written.user_count (written.held _ rfl)
    have one : share (some (pteFrame (entry m pgdir n))) (pteFrame (entry m pgdir n)) = 1 := by
      simp [share]
    rw [replaced_ref_count m rest table _ _ other, one] at count
    omega
  have final := written.dec_ref still
  have shape : copied m mem rest table (ptx n) = setRefCount
      (replaced m mem rest table (ptx n) (entry m pgdir n)) (pteFrame (entry m pgdir n))
      ((replaced m mem rest table (ptx n) (entry m pgdir n)).refCount (pteFrame (entry m pgdir n))
          - 1) := by
    rw [copied, here]
    rfl
  have entries (k : Nat) (inSpace : k < vpages) : entry (copied m mem rest table (ptx n)) pgdir k =
      if k = n then makePte mem (pteW ||| pteFlags (entry m pgdir n)) else entry m pgdir k := by
    rw [shape, entry_page_congr (set_ref_count_page _ _ _), replaced,
      taken.entry_write label' space _ dir' inSpace, same k]
    simp
  constructor
  case owned =>
    rw [shape]
    exact final
  case grows =>
    rw [shape]
    exact (first.trans (grows_write_entry taken label' _ _)).trans
      (grows_of_pages (set_ref_count_page _ _ _))
  case entries =>
    intro k inSpace different
    rw [entries k inSpace, if_neg different]
  case contents =>
    rw [entries n space, if_pos rfl, make_pte_frame (frame_in_space memory) perm, shape,
      set_ref_count_page, replaced, write_entry_page _ _ _ _ _ (role label (by simp)).symm]
    exact set_page_same _ _ _
  case accessible => exact service.1
  case unshared => exact service.2

end Faults

theorem pgflthandler_spec {b : Build} {κ : Nat → Kind} {m : Mem} {pgdir faultAddr : Nat}
    (counting : b.original = false) (strict : b.kallocNull = false) (owned : Owned b κ none m)
    (dir : κ pgdir = .pgdir) (page : faultAddr / pgsize < userPages)
    (user : has (entry m pgdir (faultAddr / pgsize)) pteU = true) :
    Yields (pgflthandler b m pgdir faultAddr)
    (fun m' => ∃ κ', Faulted b κ m pgdir (faultAddr / pgsize) κ' m')
    (fun stop => (stop = .nullRun ∧ m.freelist = [] ∧
    1 < m.refCount (pteFrame (entry m pgdir (faultAddr / pgsize)))) ∨
    (stop = .notCow ∧ has (entry m pgdir (faultAddr / pgsize)) pteCow = false)) := by
  have nonzero : entry m pgdir (faultAddr / pgsize) ≠ 0 := by
    intro zero
    rw [zero] at user
    contradiction
  have present : has (entry m pgdir (faultAddr / pgsize)) pteP = true := by
    rcases owned.mapped pgdir _ dir page with zero | ⟨present, -⟩
    · exact absurd zero nonzero
    · exact present
  rcases owned.find_cases dir (faultAddr / pgsize) with ⟨-, missing⟩ | ⟨table, label, found⟩
  · exact absurd (entry_of_find missing) nonzero
  have here : entry m pgdir (faultAddr / pgsize) = readEntry m table (ptx (faultAddr / pgsize)) :=
    entry_found m table _ found
  have apart : table ≠ pgdir := (dir_ne_table dir label).symm
  have isUser := owned.present_user dir page present
  have inside : pteFrame (entry m pgdir (faultAddr / pgsize)) < maxpages :=
    owned.bound (by simp [isUser])
  have space := user_page_inside page
  cases cow : has (entry m pgdir (faultAddr / pgsize)) pteCow with
  | false =>
    rw [here] at cow
    rw [handler_not_cow found cow]
    exact .inr ⟨rfl, rfl⟩
  | true =>
    rw [here] at cow
    rw [handler_cow found cow (by rwa [← here]) (by rwa [← here]) (by rwa [← here]), ← here,
      cowFault]
    split
    · rename_i shared
      cases list : m.freelist with
      | nil =>
        simp only [copyPage, kalloc, list, strict, Bool.false_eq_true, ↓reduceIte]
        exact .inl ⟨rfl, trivial, shared⟩
      | cons mem rest =>
        have wasFree := owned.head_free list
        have role {frame : Nat} {kind : Kind} (is : κ frame = kind) (used : kind ≠ .free) :
            mem ≠ frame := by
          rintro rfl
          exact used (is.symm.trans wasFree)
        have other := (role isUser (by simp)).symm
        rw [here] at inside other ⊢
        rw [copy_page_ok counting space found apart list (role dir (by simp))
          (role label (by simp)) inside other]
        exact ⟨_, copied_faulted owned label page found present user list shared⟩
    · rename_i notShared
      have positive : 0 < mappings κ m (pteFrame (entry m pgdir (faultAddr / pgsize))) := by
        apply refs_pos (places_mem owned dir page)
        rw [target, if_pos dir, pteTarget, if_pos present]
      have count := owned.user_count isUser
      have single : m.refCount (pteFrame (entry m pgdir (faultAddr / pgsize))) = 1 := by
        omega
      rw [if_pos single, reclaim_page_ok space found apart]
      exact ⟨κ, reclaimed_faulted owned label page found present user single⟩

end Xv6Hacks.FaultOwnership
