import Xv6Hacks.ExecConfinement

/-!
# What `exec` leaves behind

The end of `exec`: the two pages of the stack, the arguments on it and the switch from
the old address space to the new one. An executable whose headers are harmless leaves
every page with its role, stops at no panic and has been loaded into its own pages only.
-/

namespace Xv6Hacks.ExecSafety

open AddressSpace BootMemory ByteBuffers Exec ExecConfinement Kalloc Outcomes PageFault
open PageOwnership PageTables SpaceChanges SpaceGrowth SpaceTeardown UserSpaces
open GuardedRuns (bind_ok)

structure UserWrites (κ : Nat → Kind) (m m' : Mem) : Prop where
  pages : ∀ frame, κ frame ≠ .user → m'.page frame = m.page frame
  freelist : m'.freelist = m.freelist
  refCount : m'.refCount = m.refCount

section Writing
variable {b : Build} {κ : Nat → Kind} {m m' m'' : Mem} {pgdir : Nat}

theorem UserWrites.refl (κ : Nat → Kind) (m : Mem) : UserWrites κ m m :=
  ⟨fun _ _ => rfl, rfl, rfl⟩

theorem UserWrites.trans (first : UserWrites κ m m') (second : UserWrites κ m' m'') :
    UserWrites κ m m'' where
  pages := fun frame other => (second.pages frame other).trans (first.pages frame other)
  freelist := second.freelist.trans first.freelist
  refCount := second.refCount.trans first.refCount

theorem user_writes_set_page {frame : Nat} (user : κ frame = .user) (content : Buffer) :
    UserWrites κ m (setPage m frame content) where
  pages := by
    intro other notUser
    apply set_page_other
    rintro rfl
    exact notUser user
  freelist := rfl
  refCount := rfl

theorem UserWrites.structure_same (writes : UserWrites κ m m') (frame : Nat)
    (structural : (κ frame).structural = true) : m'.page frame = m.page frame := by
  apply writes.pages
  intro user
  rw [user] at structural
  contradiction

theorem UserWrites.owned (writes : UserWrites κ m m') (owned : Owned b κ none m) :
    Owned b κ none m' :=
  owned.repage writes.structure_same writes.freelist writes.refCount

theorem UserWrites.touches (writes : UserWrites κ m m') (owned : Owned b κ none m) :
    Touches (fun _ => False) κ m κ m' :=
  touches_contents owned writes.structure_same

theorem KernelOnly.congr (guarded : KernelOnly m pgdir)
    (entries : ∀ n, entry m' pgdir n = entry m pgdir n) : KernelOnly m' pgdir := by
  intro n kernel inside
  rw [entries n]
  exact guarded n kernel inside

theorem copyout_in_page {va : Nat} {bytes : List Byte}
    (found : findPte m pgdir (va / pgsize) ≠ none)
    (fits : bytes.length ≤ pgsize - va % pgsize) : ∃ result, copyout m pgdir va bytes = .ok result := by
  rw [copyout]
  split
  · exact ⟨_, rfl⟩
  · have whole : min bytes.length (pgsize - va % pgsize) = bytes.length := by omega
    rcases slot : findPte m pgdir (va / pgsize) with - | ⟨table, index⟩
    · exact absurd slot found
    · obtain ⟨pa, looked⟩ : ∃ pa, uva2ka m pgdir (va / pgsize) = .ok pa := ⟨_, uva2ka_found slot⟩
      rw [looked, ok_bind]
      split
      · exact ⟨_, rfl⟩
      · simp only [whole, List.drop_length]
        rw [copyout, if_pos rfl]
        exact ⟨_, rfl⟩

theorem word_bytes_length (words : List Nat) : (words.flatMap wordBytes).length = 4 * words.length := by
  induction words with
  | nil => rfl
  | cons word rest ih =>
    rw [List.flatMap_cons, List.length_append, ih, List.length_cons, wordBytes, List.length_map,
      List.length_range]
    omega

section
variable (owned : Owned b κ none m) (dir : κ pgdir = .pgdir) (guarded : KernelOnly m pgdir)
include owned dir guarded

theorem UserWrites.kernel_only (writes : UserWrites κ m m') : KernelOnly m' pgdir :=
  KernelOnly.congr guarded ((writes.touches owned).others pgdir (fun none => none) dir).2

theorem uva2ka_user {n : Nat} (inside : n < vpages) : Yields (uva2ka m pgdir n)
    (fun pa => pa = 0 ∨ ∃ frame, κ frame = .user ∧ pa = p2v (frame * pgsize))
    (fun stop => stop = .nullPte) := by
  rw [uva2ka]
  cases found : findPte m pgdir n with
  | none => exact rfl
  | some slot =>
    obtain ⟨table, index⟩ := slot
    have this : entry m pgdir n = readEntry m table index := entry_found m table index found
    simp only [← this]
    by_cases present : has (entry m pgdir n) pteP = true
    · rw [if_neg (by simp [present])]
      by_cases open' : has (entry m pgdir n) pteU = true
      · rw [if_neg (by simp [open'])]
        have user : n < userPages := by
          by_contra kernel
          rw [guarded n (by omega) inside] at open'
          contradiction
        exact .inr ⟨_, owned.present_user dir user present, rfl⟩
      · rw [if_pos (by simpa using open')]
        exact .inl rfl
    · rw [if_pos (by simpa using present)]
      exact .inl rfl

theorem copyout_spec {va : Nat} (address : va < 2 ^ 32) (bytes : List Byte) :
    Yields (copyout m pgdir va bytes) (fun result => UserWrites κ m result.2)
    (fun stop => stop = .nullPte) := by
  -- By induction on the number of bytes left; every round copies up to the end of a page.
  induction length : bytes.length using Nat.strong_induction_on generalizing m va bytes with
  | h count ih =>
    rw [copyout]
    split
    · exact UserWrites.refl κ m
    · rename_i nonempty
      have page : va / pgsize < vpages := by
        rw [vpages_value]
        simp only [pgsize]
        omega
      apply (uva2ka_user owned dir guarded page).bind
      rintro pa (rfl | ⟨frame, user, rfl⟩)
      · exact UserWrites.refl κ m
      · have bound : frame < maxpages := owned.bound (by simp [user])
        simp only [if_neg (p2v_ne_zero frame bound), v2p_p2v frame bound]
        have writes := user_writes_set_page (m := m) user (copyInto (m.page frame) (va % pgsize)
          (bytes.take (min bytes.length (pgsize - va % pgsize))))
        have room := page_room va
        have some' := List.length_pos_iff.mpr nonempty
        refine (ih _ ?_ (writes.owned owned) (writes.kernel_only owned dir guarded)
          (Nat.mod_lt _ (by decide)) _ rfl).mono ?_ ?_
        · rw [List.length_drop]
          omega
        · exact fun _ more => writes.trans more
        · exact fun _ stopped => stopped

theorem push_strings_spec (argv : List (List Byte)) (argc sp : Nat) :
    Yields (pushStrings pgdir argv argc sp m) (fun result => UserWrites κ m result.2)
    (fun stop => stop = .nullPte) := by
  induction argv generalizing m argc sp with
  | nil => exact UserWrites.refl κ m
  | cons arg rest ih =>
    rw [pushStrings]
    split
    · exact UserWrites.refl κ m
    · have address : (sp + 2 ^ 32 - (arg.length + 1)) % 2 ^ 32 / 4 * 4 < 2 ^ 32 := by omega
      apply (copyout_spec owned dir guarded address (arg ++ [0])).bind
      rintro ⟨copied, after⟩ writes
      simp only at writes ⊢
      split
      · apply (ih (writes.owned owned) (writes.kernel_only owned dir guarded) (argc + 1) _).bind
        rintro ⟨pushed, last⟩ more
        cases pushed with
        | none => exact writes.trans more
        | some top => exact writes.trans more
      · exact writes

def stringRoom (argv : List (List Byte)) : Nat := (argv.map fun arg => arg.length + 4).sum

def stackRoom (argv : List (List Byte)) : Nat := stringRoom argv + (3 + argv.length + 1) * 4

theorem push_strings_in_page {n : Nat} (user : n < userPages) (found : findPte m pgdir n ≠ none)
    (argv : List (List Byte)) (argc sp slack : Nat)
    (lower : n * pgsize + slack + stringRoom argv ≤ sp) (upper : sp ≤ (n + 1) * pgsize) :
    ∃ pushed after, pushStrings pgdir argv argc sp m = .ok (pushed, after) ∧
    ∀ last addresses, pushed = some (last, addresses) →
    n * pgsize + slack ≤ last ∧ last ≤ (n + 1) * pgsize ∧ addresses.length = argv.length := by
  rw [user_pages_value] at user
  induction argv generalizing m argc sp with
  | nil =>
    refine ⟨some (sp, []), m, rfl, ?_⟩
    intro last addresses same
    cases same
    exact ⟨by simp only [stringRoom, List.map_nil, List.sum_nil] at lower; omega, upper, rfl⟩
  | cons arg rest ih =>
    rw [pushStrings]
    split
    · exact ⟨none, m, rfl, fun last addresses same => by cases same⟩
    simp only [stringRoom, List.map_cons, List.sum_cons] at lower ih
    simp only [pgsize] at lower upper ih ⊢
    have low : n * 4096 + slack + (rest.map fun arg => arg.length + 4).sum ≤
        (sp + 2 ^ 32 - (arg.length + 1)) % 2 ^ 32 / 4 * 4 := by omega
    have high : (sp + 2 ^ 32 - (arg.length + 1)) % 2 ^ 32 / 4 * 4 + (arg.length + 1) ≤
        (n + 1) * 4096 := by omega
    generalize (sp + 2 ^ 32 - (arg.length + 1)) % 2 ^ 32 / 4 * 4 = sp' at low high
    have page : sp' / pgsize = n := by
      simp only [pgsize]
      omega
    have inPage : (arg ++ [0]).length ≤ pgsize - sp' % pgsize := by
      simp only [List.length_append, List.length_singleton, pgsize]
      omega
    obtain ⟨⟨copied, after⟩, returned⟩ := copyout_in_page (by rwa [page]) inPage
    have writes := (copyout_spec owned dir guarded (by omega : sp' < 2 ^ 32) _).of_ok returned
    rw [returned, ok_bind]
    cases copied with
    | false => exact ⟨none, after, rfl, fun last addresses same => by cases same⟩
    | true =>
      have found' : findPte after pgdir n ≠ none := by
        rwa [find_pte_congr n ((writes.touches owned).others pgdir (fun none => none) dir).1]
      rcases ih (writes.owned owned) (writes.kernel_only owned dir guarded) found' (argc + 1) sp'
        low (by omega) with ⟨pushed, final, ended, bounds⟩
      simp only [↓reduceIte, ended, ok_bind]
      rcases pushed with - | ⟨last, addresses⟩
      · exact ⟨none, final, rfl, fun last addresses same => by cases same⟩
      · refine ⟨_, final, rfl, ?_⟩
        intro top all same
        cases same
        obtain ⟨below, above, count⟩ := bounds last addresses rfl
        exact ⟨below, above, by rw [List.length_cons, List.length_cons, count]⟩

theorem push_args_in_page {n : Nat} (user : n < userPages) (found : findPte m pgdir n ≠ none)
    (argv : List (List Byte)) (fits : stackRoom argv ≤ pgsize) :
    ∃ result, pushArgs pgdir ((n + 1) * pgsize) argv m = .ok result := by
  have room : n * pgsize + (3 + argv.length + 1) * 4 + stringRoom argv ≤ (n + 1) * pgsize := by
    simp only [stackRoom, pgsize] at fits ⊢
    omega
  rcases push_strings_in_page owned dir guarded user found argv 0 ((n + 1) * pgsize) _ room
    le_rfl with ⟨pushed, after, returned, bounds⟩
  have writes := (push_strings_spec owned dir guarded argv 0 _).of_ok returned
  rw [pushArgs, returned, ok_bind]
  rcases pushed with - | ⟨last, addresses⟩
  · exact ⟨_, rfl⟩
  · obtain ⟨lower, upper, count⟩ := bounds last addresses rfl
    have same := (writes.touches owned).others pgdir (fun none => none) dir
    rw [user_pages_value] at user
    simp only [pgsize] at lower upper
    have page : (last + 2 ^ 32 - (3 + argv.length + 1) * 4) % 2 ^ 32 / pgsize = n := by
      simp only [pgsize]
      omega
    apply copyout_in_page
    · rw [page, find_pte_congr n same.1]
      exact found
    · rw [word_bytes_length]
      simp only [List.length_append, List.length_cons, List.length_nil, count, pgsize]
      omega

theorem push_args_spec {n : Nat} (user : n < userPages) (found : findPte m pgdir n ≠ none)
    (argv : List (List Byte)) :
    Yields (pushArgs pgdir ((n + 1) * pgsize) argv m) (fun result => UserWrites κ m result.2)
    (fun stop => stop = .nullPte ∧ pgsize < stackRoom argv) := by
  have spec : Yields (pushArgs pgdir ((n + 1) * pgsize) argv m)
      (fun result => UserWrites κ m result.2) (fun stop => stop = .nullPte) := by
    rw [pushArgs]
    apply (push_strings_spec owned dir guarded argv 0 _).bind
    rintro ⟨pushed, after⟩ writes
    cases pushed with
    | none => exact writes
    | some top =>
      refine (copyout_spec (writes.owned owned) dir (writes.kernel_only owned dir guarded)
        (Nat.mod_lt _ (by decide)) _).mono ?_ ?_
      · exact fun _ more => writes.trans more
      · exact fun _ stopped => stopped
  cases ended : pushArgs pgdir ((n + 1) * pgsize) argv m with
  | ok result => exact spec.of_ok ended
  | error stop =>
    refine ⟨spec.of_error ended, ?_⟩
    by_contra fits
    obtain ⟨result, returned⟩ := push_args_in_page owned dir guarded user found argv (by omega)
    rw [returned] at ended
    cases ended

end
end Writing

theorem clear_user_frame (pte : Pte) : pteFrame (pte &&& ~~~ pteU) = pteFrame pte := by
  have high : (~~~ pteU).toNat / pgsize = 2 ^ 20 - 1 := by decide
  rw [pteFrame, pteFrame, BitVec.toNat_and, show pgsize = 2 ^ 12 from rfl,
    Nat.and_div_two_pow, show (2 : Nat) ^ 12 = pgsize from rfl, high,
    Nat.and_two_pow_sub_one_eq_mod, Nat.mod_eq_of_lt]
  simp only [pgsize]
  omega

theorem clear_user_present (pte : Pte) : has (pte &&& ~~~ pteU) pteP = has pte pteP := by
  have mask : (~~~ pteU).getLsbD 0 = true := by decide
  rw [has_present, has_present, BitVec.getLsbD_and, mask, Bool.and_true]

section Guard
variable {b : Build} {κ : Nat → Kind} {m : Mem} {pgdir n sz : Nat}

theorem clearpteu_spec (owned : Owned b κ none m) (dir : κ pgdir = .pgdir)
    (guarded : KernelOnly m pgdir) (sized : Sized m pgdir sz) (inside : n < pagesUp sz)
    (present : has (entry m pgdir n) pteP = true) :
    ∃ after, clearpteu m pgdir n = .ok after ∧ Owned b κ none after ∧
    Touches (fun frame => frame = pgdir) κ m κ after ∧ KernelOnly after pgdir ∧
    Sized after pgdir sz := by
  have user : n < userPages := inside.trans_le (pages_up_user sized.below)
  have page := user_page_inside user
  rcases owned.find_cases dir n with ⟨empty, -⟩ | ⟨table, label, found⟩
  · exact absurd empty (sized.tables n inside)
  have this : entry m pgdir n = readEntry m table (ptx n) := entry_found m table _ found
  have target : pteTarget (entry m pgdir n &&& ~~~ pteU) = pteTarget (entry m pgdir n) := by
    rw [pteTarget, pteTarget, clear_user_present, clear_user_frame]
  have entries (k : Nat) (inSpace : k < vpages) (other : k ≠ n) :
      entry (writeEntry m table (ptx n) (entry m pgdir n &&& ~~~ pteU)) pgdir k =
        entry m pgdir k := by
    rw [owned.entry_write label page _ dir inSpace, if_neg]
    rintro ⟨-, same⟩
    exact other same
  refine ⟨writeEntry m table (ptx n) (entry m pgdir n &&& ~~~ pteU), ?_, ?_, ?_, ?_, ?_⟩
  · rw [clearpteu, found, this]
  · apply owned.set_user_entry label user
    · right
      rw [clear_user_present, clear_user_frame]
      exact ⟨present, owned.present_user dir user present⟩
    · exact owned.held
    · intro frame
      rw [target]
  · exact touches_write_entry owned label _ _
  · intro k kernel inSpace
    rw [entries k inSpace (by omega)]
    exact guarded k kernel inSpace
  · refine ⟨sized.below, ?_, ?_⟩
    · intro k above below
      rw [entries k (user_page_inside below) (by omega)]
      exact sized.absent k above below
    · intro k low
      rw [read_write_entry_table _ _ _ _ _ _ (dir_ne_table dir label)]
      exact sized.tables k low

end Guard

/-- What `exec` leaves behind: a new directory in the place of the old one, or, when it
returns -1, the directories as they were. -/
def Executed (b : Build) (κ : Nat → Kind) (m : Mem) (oldpgdir : Nat) (result : Outcome) : Prop :=
  ∃ κ', Owned b κ' none result.m ∧
    match result.space with
    | none => Touches (fun _ => False) κ m κ' result.m
    | some (pgdir, sz) =>
      Touches (fun frame => frame = oldpgdir ∨ frame = pgdir) κ m κ' result.m ∧
        κ pgdir = .free ∧ κ' pgdir = .pgdir ∧ κ' oldpgdir = .free ∧ Sized result.m pgdir sz

/-- A new directory is under construction, and the rest is as it was. -/
structure Building (b : Build) (κ₀ : Nat → Kind) (m₀ : Mem) (pgdir : Nat) (κ : Nat → Kind)
    (m : Mem) : Prop where
  owned : Owned b κ none m
  dir : κ pgdir = .pgdir
  fresh : κ₀ pgdir = .free
  touches : Touches (fun frame => frame = pgdir) κ₀ m₀ κ m

section Finishing
variable {b : Build} {κ₀ κ : Nat → Kind} {m₀ m m' : Mem} {oldpgdir pgdir : Nat} {image : Image}

theorem Building.keep (building : Building b κ₀ m₀ pgdir κ m) (owned : Owned b κ none m')
    (touches : Touches (fun frame => frame = pgdir) κ m κ m') : Building b κ₀ m₀ pgdir κ m' :=
  ⟨owned, building.dir, building.fresh, building.touches.trans touches⟩

theorem Building.keep_writes (building : Building b κ₀ m₀ pgdir κ m) (writes : UserWrites κ m m') :
    Building b κ₀ m₀ pgdir κ m' :=
  building.keep (writes.owned building.owned)
    ((writes.touches building.owned).mono fun _ none => none.elim)

theorem loading_building (loading : Loading b κ₀ m₀ pgdir κ image) :
    Building b κ₀ m₀ pgdir κ image.m :=
  ⟨loading.owned, loading.dir, loading.fresh, grows_touches loading.grows⟩

theorem loading_round_up (loading : Loading b κ₀ m₀ pgdir κ image)
    (below : pagesUp image.sz * pgsize < kernbase) :
    Loading b κ₀ m₀ pgdir κ { image with sz := pagesUp image.sz * pgsize } := by
  have same : pagesUp (pagesUp image.sz * pgsize) = pagesUp image.sz := by
    simp only [pagesUp, pgsize]
    omega
  constructor
  case owned => exact loading.owned
  case dir => exact loading.dir
  case fresh => exact loading.fresh
  case grows => exact loading.grows
  case sized =>
    refine ⟨below, ?_, ?_⟩
    · simp only [same]
      exact loading.sized.absent
    · simp only [same]
      exact loading.sized.tables
  case pages =>
    simp only [same]
    exact loading.pages
  case allocated =>
    simp only [same]
    exact loading.allocated
  case guarded => exact loading.guarded
  case confined => exact loading.confined

variable (counting : b.original = false)
include counting

theorem bad_spec (building : Building b κ₀ m₀ pgdir κ m) :
    ∃ result, bad b pgdir m [] = .ok result ∧ result.escapes = [] ∧
    Executed b κ₀ m₀ oldpgdir result := by
  obtain ⟨κ', after, freed, owned, gone⟩ := freevm_spec counting building.owned building.dir
  refine ⟨{ m := after, space := none, escapes := [] }, ?_, rfl, κ', owned, ?_⟩
  · rw [bad, freed]
    rfl
  · have all := building.touches.trans (freed_touches gone building.dir)
    apply (all.mono fun _ here => .inr here : Touches (fun frame => False ∨ frame = pgdir) _ _ _ _).forget
    · rw [building.fresh]
      simp
    · rw [gone.gone]
      simp

theorem switch_spec (building : Building b κ₀ m₀ pgdir κ m) (old : κ₀ oldpgdir = .pgdir) {sz : Nat}
    (sized : Sized m pgdir sz) : ∃ after, freevm b m oldpgdir = .ok after ∧
      Executed b κ₀ m₀ oldpgdir { m := after, space := some (pgdir, sz), escapes := [] } := by
  have apart : pgdir ≠ oldpgdir := label_ne building.fresh old nofun
  have old' : κ oldpgdir = .pgdir := (building.touches.dirs oldpgdir apart.symm).mpr old
  obtain ⟨κ', after, freed, owned, gone⟩ := freevm_spec counting building.owned old'
  have rest := freed_touches gone old'
  have dir' : κ' pgdir = .pgdir := (rest.dirs pgdir apart).mpr building.dir
  refine ⟨after, freed, κ', owned, ?_, building.fresh, dir', gone.gone, ?_⟩
  · exact (building.touches.mono fun _ here => .inr here).trans
      (rest.mono fun _ here => .inl here)
  · exact rest.sized apart building.dir sized

variable (strict : b.kallocNull = false)
include strict

theorem finish_with_stack (loading : Loading b κ₀ m₀ pgdir κ image) (old : κ₀ oldpgdir = .pgdir)
    (argv : List (List Byte)) (room : pagesUp image.sz + 2 < 524288) :
    Yields (finish b oldpgdir pgdir argv image)
    (fun result => result.escapes = [] ∧ Executed b κ₀ m₀ oldpgdir result)
    (fun stop => (stop = .nullRun ∧ image.m.freelist.length < 4) ∨
    (stop = .nullPte ∧ pgsize < stackRoom argv)) := by
  rw [finish]
  have below : pagesUp image.sz * pgsize < kernbase := by
    simp only [pgsize, kernbase]
    omega
  have pages : pagesUp (pagesUp image.sz * pgsize) = pagesUp image.sz := by
    simp only [pagesUp, pgsize]
    omega
  have more : pagesUp (pagesUp image.sz * pgsize + 2 * pgsize) = pagesUp image.sz + 2 := by
    simp only [pagesUp, pgsize]
    omega
  apply (grow_spec counting strict (loading_round_up loading below) _).seq
  · rintro stop ⟨rfl, short⟩
    simp only [pages, more] at short
    exact .inl ⟨rfl, by omega⟩
  rintro ⟨grown, image'⟩ ⟨⟨κ', loading'⟩, size⟩
  simp only at loading' size
  simp only [loading'.confined]
  cases grown with
  | false =>
    obtain ⟨result, ended, done⟩ := bad_spec counting (loading_building loading')
    simp only [↓reduceIte, ended]
    exact done
  | true =>
    have sz : image'.sz = pagesUp image.sz * pgsize + 2 * pgsize := by
      rw [(size rfl).2]
      omega
    have inside : pagesUp image'.sz - 2 < pagesUp image'.sz := by
      rw [sz, more]
      omega
    have present : has (entry image'.m pgdir (pagesUp image'.sz - 2)) pteP = true := by
      obtain ⟨frame, -, -, mapped⟩ := loading'.pages _ inside
      rw [mapped]
      exact make_pte_present
    rcases clearpteu_spec loading'.owned loading'.dir loading'.guarded loading'.sized inside
      present with ⟨cleared, ended, owned, touches, guarded, sized⟩
    have building := (loading_building loading').keep owned touches
    have last : pagesUp image.sz + 1 < pagesUp image'.sz := by
      rw [sz, more]
      omega
    have user : pagesUp image.sz + 1 < userPages := last.trans_le (pages_up_user sized.below)
    have found : findPte cleared pgdir (pagesUp image.sz + 1) ≠ none := by
      rcases owned.find_cases loading'.dir (pagesUp image.sz + 1) with ⟨empty, -⟩ | ⟨_, -, here⟩
      · exact absurd empty (sized.tables _ last)
      · rw [here]
        simp
    have top : image'.sz = (pagesUp image.sz + 1 + 1) * pgsize := by
      rw [sz]
      simp only [pgsize]
      omega
    have arguments := push_args_spec owned loading'.dir guarded user found argv
    rw [← top] at arguments
    simp only [Bool.true_eq_false, ↓reduceIte, ended, ok_bind]
    apply arguments.seq
    · exact fun _ stopped => .inr stopped
    rintro ⟨pushed, written⟩ writes
    have after := building.keep_writes writes
    cases pushed with
    | false =>
      obtain ⟨result, ended, done⟩ := bad_spec counting after
      simp only [↓reduceIte, ended]
      exact done
    | true =>
      have sized' := (writes.touches owned).sized (fun none => none) loading'.dir sized
      obtain ⟨final, ended, done⟩ := switch_spec counting after old sized'
      simp only [Bool.true_eq_false, ↓reduceIte, ended, ok_bind]
      exact ⟨rfl, done⟩

omit counting strict in
theorem finish_without_stack (argv : List (List Byte)) (full : 524288 ≤ pagesUp image.sz + 2) :
    finish b oldpgdir pgdir argv image = bad b pgdir image.m image.escapes := by
  have high : kernbase ≤ pagesUp image.sz * pgsize + 2 * pgsize := by
    simp only [pgsize, kernbase]
    omega
  rw [finish, grow, allocuvm, if_pos high]
  rfl

theorem finish_spec (loading : Loading b κ₀ m₀ pgdir κ image) (old : κ₀ oldpgdir = .pgdir)
    (argv : List (List Byte)) : Yields (finish b oldpgdir pgdir argv image)
    (fun result => result.escapes = [] ∧ Executed b κ₀ m₀ oldpgdir result)
    (fun stop => (stop = .nullRun ∧ image.m.freelist.length < 4) ∨
    (stop = .nullPte ∧ pgsize < stackRoom argv)) := by
  rcases Nat.lt_or_ge (pagesUp image.sz + 2) 524288 with room | full
  · exact finish_with_stack counting strict loading old argv room
  · obtain ⟨result, ended, done⟩ := bad_spec counting (loading_building loading)
    rw [finish_without_stack argv full, loading.confined, ended]
    exact done

end Finishing

/-- The condition on the executable: every loadable header that `exec` gets to is aligned
and leads to pages that this call has allocated. -/
def ExecOk (b : Build) (m : Mem) (file : List Byte) : Prop :=
  ∀ elf, readElfhdr file = some elf → ∀ pgdir m', setupkvm b m = .ok (some pgdir, m') →
    HeadersOk b file pgdir elf.phnum elf.phoff (emptyImage m')

/-- `exec` comes back, and `loaduvm` has written to pages of the new directory only. -/
def Confined (b : Build) (m : Mem) (oldpgdir : Nat) (file : List Byte) (argv : List (List Byte)) :
    Prop :=
  ∃ result, exec b m oldpgdir file argv = .ok result ∧ result.escapes = []

section Executing
variable {b : Build} {κ : Nat → Kind} {m : Mem} {oldpgdir : Nat} {file : List Byte}
variable (counting : b.original = false) (strict : b.kallocNull = false)
variable (owned : Owned b κ none m)
include counting strict owned

theorem exec_spec (old : κ oldpgdir = .pgdir) (argv : List (List Byte)) (ok : ExecOk b m file) :
    Yields (exec b m oldpgdir file argv)
    (fun result => result.escapes = [] ∧ Executed b κ m oldpgdir result)
    (fun stop => stop = .nullRun ∨ (stop = .nullPte ∧ pgsize < stackRoom argv)) := by
  rw [exec]
  cases header : readElfhdr file with
  | none => exact ⟨rfl, κ, owned, Touches.refl _ κ m⟩
  | some elf =>
    have spec := new_space_loading counting strict owned
    cases made : setupkvm b m with
    | error stop => exact .inl (spec.of_error made).1
    | ok result =>
      obtain ⟨space, first⟩ := result
      obtain ⟨pgdir, κ', rfl, loading, -, -⟩ := spec.of_ok made
      simp only [ok_bind]
      apply (load_headers_safe counting strict loading elf.phnum elf.phoff
        (ok elf header pgdir first made)).seq
      · exact fun _ stopped => .inl stopped
      rintro ⟨loaded, image⟩ ⟨κ'', loading'⟩
      cases loaded with
      | true =>
        refine (finish_spec counting strict loading' old argv).mono (fun _ done => done) ?_
        exact fun _ stopped => stopped.imp_left fun short => short.1
      | false =>
        have quiet : image.escapes = [] := loading'.confined
        obtain ⟨result, ended, done⟩ := bad_spec counting (loading_building loading')
        simp only [Bool.false_eq_true, ↓reduceIte, quiet, ended]
        exact done

end Executing

/-- An ELF header with one program header behind it, of which `phnum` says whether it
counts. -/
def elfFile (phnum : Byte) (ph : List Byte) : List Byte :=
  [0x7F, 0x45, 0x4C, 0x46] ++ List.replicate 24 0 ++ [52, 0, 0, 0] ++ List.replicate 12 0 ++
    [phnum, 0] ++ List.replicate 6 0 ++ ph

theorem one_page_space {κ : Nat → Kind} {m : Mem} (owned : Owned sampleBuild κ none m)
    (many : 1000 < m.freelist.length) :
    ∃ pgdir first κ' image, setupkvm sampleBuild m = .ok (some pgdir, first) ∧
    grow sampleBuild pgdir (emptyImage first) 0x1000 = .ok (true, image) ∧
    Loading sampleBuild κ m pgdir κ' image ∧
    ∀ frame, sampleBuild.dataFrame ≤ frame → frame < maxpages →
    entry image.m pgdir (userPages + frame) = makePte frame pteW := by
  obtain ⟨⟨space, first⟩, made, pgdir, κ1, same, loading, mapped, cost⟩ :=
    (new_space_loading rfl rfl owned).returns (by rintro stop ⟨-, short⟩; omega)
  cases same
  simp only at mapped cost
  have one : pagesUp 0x1000 = 1 := by decide
  rcases (allocuvm_spec rfl rfl loading.owned loading.dir 0x1000 loading.sized).returns (by
    rintro stop ⟨-, short⟩
    simp only [one, emptyImage] at short
    omega) with ⟨⟨sz, after⟩, allocated, result⟩
  rcases result with ⟨high, -⟩ | ⟨less, -⟩ | ⟨-, -, rfl, κ2, -, -, pages, -⟩
  · exact absurd high (by decide)
  · exact absurd less (Nat.not_lt_zero _)
  obtain ⟨image, grown, rfl⟩ : ∃ image,
      grow sampleBuild pgdir (emptyImage first) 0x1000 = .ok (true, image) ∧ image.m = after := by
    rw [grow, allocated]
    exact ⟨_, rfl, rfl⟩
  obtain ⟨κ', loading'⟩ := ((grow_spec rfl rfl loading 0x1000).of_ok grown).1
  refine ⟨pgdir, first, κ', image, made, grown, loading', fun frame low high => ?_⟩
  rw [← mapped.2 frame low high]
  refine pages.outside _ ?_ (.inr ?_)
  · rw [user_pages_value, vpages_value]
    rw [maxpages_value] at high
    omega
  · have low : pagesUp 0 + (pagesUp 0x1000 - pagesUp 0) ≤ userPages := by decide
    exact low.trans (Nat.le_add_right userPages frame)

theorem loaduvm_kernel {b : Build} {file bytes : List Byte} {pgdir frame offset : Nat}
    {image : Image} (inside : frame < maxpages)
    (kernel : entry image.m pgdir (userPages + frame) = makePte frame pteW)
    (contents : readi file (offset % 2 ^ 32) 4 = some bytes) (four : bytes.length = 4) :
    loaduvm b file pgdir (kernbase + frame * pgsize) offset 4 image =
    (storeBytes b image frame bytes).bind fun middle => .ok (true, middle) := by
  have aligned : (kernbase + frame * pgsize) % pgsize = 0 := by
    simp only [kernbase, pgsize]
    omega
  have index : ((kernbase + frame * pgsize) / pgsize + 0) % vpages = userPages + frame := by
    rw [Nat.add_zero, Nat.add_mul_div_right _ _ (by decide : 0 < pgsize)]
    apply Nat.mod_eq_of_lt
    rw [vpages_value]
    rw [maxpages_value] at inside
    simp only [kernbase, pgsize]
    omega
  rcases found : findPte image.m pgdir (userPages + frame) with - | slot
  · have present : has (makePte frame pteW) pteP = true := make_pte_present
    rw [← kernel, entry_of_find found] at present
    contradiction
  · rw [← index] at found
    rw [loaduvm, if_neg (by simp [aligned]), show pagesUp 4 = 0 + 1 by decide,
      load_loop_found found, index, kernel, make_pte_frame (frame_in_space inside) (by decide),
      Nat.zero_mul, Nat.add_zero, show min (4 - 0) pgsize = 4 by decide, contents]
    simp only [four, ↓reduceIte, loadLoop]
    rfl

end Xv6Hacks.ExecSafety
