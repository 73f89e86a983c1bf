import Xv6Hacks.SpaceGrowth

/-!
# Growing and forking user memory

The loops of `allocuvm`, `copyuvm` and `cowuvm` and the functions around them. Growing
gives a directory new pages; `copyuvm` gives the child pages of its own with the
parent's contents, and `cowuvm` gives it the parent's pages, marked in the child's
entries only.
-/

namespace Xv6Hacks.UserSpaces

open AddressSpace ByteBuffers Kalloc Outcomes PageOwnership PageTables SpaceGrowth

/-- The pages below `sz` have page tables, and those above are not mapped. -/
structure Sized (m : Mem) (pgdir sz : Nat) : Prop where
  below : sz < kernbase
  absent : ∀ n, pagesUp sz ≤ n → n < userPages → entry m pgdir n = 0
  tables : ∀ n, n < pagesUp sz → readEntry m pgdir (pdx n) ≠ 0

theorem pages_up_user {sz : Nat} (below : sz < kernbase) : pagesUp sz ≤ userPages := by
  rw [user_pages_value]
  simp only [pagesUp, pgsize, kernbase] at below ⊢
  omega

theorem pages_up_mono {small large : Nat} (le : small ≤ large) : pagesUp small ≤ pagesUp large := by
  simp only [pagesUp, pgsize]
  omega

theorem user_page_inside {n : Nat} (user : n < userPages) : n < vpages := by
  rw [user_pages_value] at user
  rw [vpages_value]
  omega

/-- The pages `n` to `n + count - 1` of a directory are new, for the user to write and filled
with zeros; its other entries are what they were. -/
structure NewPages (κ : Nat → Kind) (m : Mem) (κ' : Nat → Kind) (m' : Mem)
    (pgdir n count : Nat) : Prop where
  outside : ∀ k, k < vpages → k < n ∨ n + count ≤ k → entry m' pgdir k = entry m pgdir k
  new : ∀ k, n ≤ k → k < n + count → ∃ frame, κ frame = .free ∧ κ' frame = .user ∧
    entry m' pgdir k = makePte frame (pteW ||| pteU) ∧ m'.page frame = fun _ => 0

theorem Sized.grow {κ κ' : Nat → Kind} {m m' : Mem} {pgdir oldsz newsz : Nat}
    (sized : Sized m pgdir oldsz) (dir : κ pgdir = .pgdir) (more : oldsz ≤ newsz)
    (below : newsz < kernbase) (grows : Grows pgdir κ m κ' m')
    (pages : NewPages κ m κ' m' pgdir (pagesUp oldsz) (pagesUp newsz - pagesUp oldsz)) :
    Sized m' pgdir newsz := by
  have order := pages_up_mono more
  constructor
  · exact below
  · intro n above user
    rw [pages.outside n (user_page_inside user) (.inr (by omega))]
    exact sized.absent n (by omega) user
  · intro n inside
    by_cases old : n < pagesUp oldsz
    · exact grows.kept dir _ (sized.tables n old)
    · obtain ⟨frame, -, -, mapped, -⟩ := pages.new n (by omega) (by omega)
      apply pde_of_entry
      rw [mapped]
      intro zero
      have present : has (makePte frame (pteW ||| pteU)) pteP = true := make_pte_present
      rw [zero] at present
      contradiction

section Loops
variable {b : Build} {κ : Nat → Kind} {m : Mem} {pgdir : Nat}
variable (counting : b.original = false) (strict : b.kallocNull = false)
include counting strict

theorem alloc_loop_spec (owned : Owned b κ none m) (dir : κ pgdir = .pgdir) (count n : Nat)
    (top : n + count ≤ userPages) (absent : ∀ k, n ≤ k → k < n + count → entry m pgdir k = 0) :
    Yields (allocLoop b pgdir count n m)
    (fun result => result.1 = true ∧ ∃ κ', Owned b κ' none result.2 ∧
    Grows pgdir κ m κ' result.2 ∧ NewPages κ m κ' result.2 pgdir n count ∧
    m.freelist.length ≤ result.2.freelist.length + 2 * count)
    (fun stop => stop = .nullRun ∧ m.freelist.length < 2 * count) := by
  induction count generalizing κ m n with
  | zero =>
    refine ⟨rfl, κ, owned, Grows.refl _ _ _, ⟨fun _ _ _ => rfl, ?_⟩, le_rfl⟩
    intro k lower upper
    omega
  | succ count ih =>
    rw [allocLoop]
    apply (kalloc_spec counting strict m).seq
    · rintro stop ⟨rfl, none⟩
      refine ⟨rfl, ?_⟩
      rw [none, List.length_nil]
      omega
    rintro result ⟨frame, rest, list, rfl⟩
    have user : n < userPages := by omega
    apply (new_user_page counting strict owned dir list (fun _ => 0) user
      (by decide : (pteW ||| pteU).toNat < pgsize) (absent n (by omega) (by omega))).seq
    · rintro stop ⟨rfl, short⟩
      exact ⟨rfl, by omega⟩
    rintro ⟨done, mapped⟩ ⟨-, κ1, owned1, grows1, wasFree, isUser, content, entries, cost⟩
    simp only at owned1 grows1 content entries cost
    have dir1 := grows1.label dir nofun
    have still (k : Nat) (lower : n + 1 ≤ k) (upper : k < n + 1 + count) :
        entry mapped pgdir k = 0 := by
      rw [entries k (user_page_inside (by omega)), if_neg (by omega)]
      exact absent k (by omega) (by omega)
    refine (ih owned1 dir1 (n + 1) (by omega) still).mono ?_ ?_
    · rintro result ⟨done, κ2, owned2, grows2, pages, cost2⟩
      refine ⟨done, κ2, owned2, grows1.trans grows2, ⟨?_, ?_⟩, by omega⟩
      · intro k inside apart
        rw [pages.outside k inside (by omega), entries k inside, if_neg (by omega)]
      · intro k lower upper
        by_cases first : k = n
        · subst first
          refine ⟨frame, wasFree, ?_, ?_, ?_⟩
          · exact grows2.label isUser nofun
          · rw [pages.outside k (user_page_inside user) (by omega),
              entries k (user_page_inside user), if_pos rfl]
          · rw [grows2.contents frame isUser, content]
        · obtain ⟨page, free1, user2, at2, zero⟩ := pages.new k (by omega) (by omega)
          exact ⟨page, grows1.was_free free1, user2, at2, zero⟩
    · rintro stop ⟨rfl, short⟩
      exact ⟨rfl, by omega⟩

def Allocated (b : Build) (κ : Nat → Kind) (m : Mem) (pgdir oldsz newsz : Nat) (after : Mem) :
    Prop :=
  ∃ κ', Owned b κ' none after ∧ Grows pgdir κ m κ' after ∧
    NewPages κ m κ' after pgdir (pagesUp oldsz) (pagesUp newsz - pagesUp oldsz) ∧
    m.freelist.length ≤ after.freelist.length + 2 * (pagesUp newsz - pagesUp oldsz)

theorem allocuvm_spec (owned : Owned b κ none m) (dir : κ pgdir = .pgdir) {oldsz : Nat}
    (newsz : Nat) (sized : Sized m pgdir oldsz) : Yields (allocuvm b m pgdir oldsz newsz)
    (fun result => (kernbase ≤ newsz ∧ result = (0, m)) ∨ (newsz < oldsz ∧ result = (oldsz, m)) ∨
    (oldsz ≤ newsz ∧ newsz < kernbase ∧ result.1 = newsz ∧
    Allocated b κ m pgdir oldsz newsz result.2)) (fun stop => stop = .nullRun ∧
    m.freelist.length < 2 * (pagesUp newsz - pagesUp oldsz)) := by
  rw [allocuvm]
  split
  · rename_i high
    exact .inl ⟨high, rfl⟩
  · rename_i below
    split
    · rename_i less
      exact .inr (.inl ⟨less, rfl⟩)
    · rename_i more
      have top := pages_up_user (Nat.lt_of_not_le below)
      have order := pages_up_mono (Nat.le_of_not_lt more)
      apply (alloc_loop_spec counting strict owned dir _ _ (by omega) fun k lower upper =>
        sized.absent k lower (by omega)).bind
      rintro ⟨done, after⟩ ⟨rfl, κ', kept, grows, pages, cost⟩
      exact .inr (.inr ⟨by omega, by omega, rfl, κ', kept, grows, pages, cost⟩)

theorem inituvm_spec (owned : Owned b κ none m) (dir : κ pgdir = .pgdir) {init : List Byte}
    (short : init.length < pgsize) (absent : entry m pgdir 0 = 0) : Yields (inituvm b m pgdir init)
      (fun after => ∃ κ' frame, Owned b κ' none after ∧ Grows pgdir κ m κ' after ∧
        κ frame = .free ∧ κ' frame = .user ∧ (∀ k, k < vpages → entry after pgdir k =
          if k = 0 then makePte frame (pteW ||| pteU) else entry m pgdir k) ∧
        after.page frame = copyInto (fun _ => 0) 0 init ∧
        m.freelist.length ≤ after.freelist.length + 2)
      (fun stop => stop = .nullRun ∧ m.freelist.length < 2) := by
  rw [inituvm, if_neg (by omega)]
  apply (kalloc_spec counting strict m).seq
  · rintro stop ⟨rfl, none⟩
    refine ⟨rfl, ?_⟩
    rw [none]
    decide
  rintro result ⟨frame, rest, list, rfl⟩
  apply (new_user_page counting strict owned dir list (fun _ => 0) (by decide : 0 < userPages)
    (by decide : (pteW ||| pteU).toNat < pgsize) absent).bind
  rintro ⟨done, after⟩ ⟨-, κ', kept, grows, wasFree, isUser, content, entries, cost⟩
  simp only at kept grows content entries cost
  have fresh : κ frame ≠ .user := by
    rw [wasFree]
    simp
  have plain : (κ' frame).structural = false := by
    rw [isUser]
    rfl
  refine ⟨κ', frame, kept.set_page plain _, grows.set_page kept fresh plain _, wasFree, isUser,
    ?_, ?_, cost⟩
  · intro k inside
    have still := grows.label dir nofun
    rw [kept.entry_set_page plain _ still, entries k inside]
  · rw [set_page_same, content]

end Loops

/-- `copyuvm` and `cowuvm` panic at a page that is not present. -/
def Hole (m : Mem) (pgdir count : Nat) (stop : Stop) : Prop :=
  (stop = .pteShouldExist ∨ stop = .pageNotPresent) ∧
    ∃ k, k < count ∧ has (entry m pgdir k) pteP = false

theorem source_pte_spec (m : Mem) (pgdir n : Nat) : Yields (sourcePte m pgdir n)
    (fun pte => pte = entry m pgdir n ∧ has (entry m pgdir n) pteP = true)
    (Hole m pgdir (n + 1)) := by
  rw [sourcePte]
  split
  · rename_i missing
    refine ⟨.inl rfl, n, Nat.lt_succ_self n, ?_⟩
    rw [entry_of_find missing]
    decide
  · rename_i table index found
    have mapped := entry_found m table index found
    simp only
    split
    · rename_i present
      rw [← mapped] at present
      exact ⟨mapped.symm, present⟩
    · rename_i absent
      rw [← mapped, Bool.not_eq_true] at absent
      exact ⟨.inr rfl, n, Nat.lt_succ_self n, absent⟩

theorem Hole.mono {m m' : Mem} {pgdir small large : Nat} {stop : Stop}
    (hole : Hole m' pgdir small stop) (same : ∀ k, entry m' pgdir k = entry m pgdir k)
    (le : small ≤ large) : Hole m pgdir large stop := by
  obtain ⟨which, k, inside, absent⟩ := hole
  rw [same k] at absent
  exact ⟨which, k, inside.trans_le le, absent⟩

theorem grows_of_pages {pgdir : Nat} {κ : Nat → Kind} {m after : Mem}
    (same : after.page = m.page) : Grows pgdir κ m κ after where
  kinds := fun _ _ => rfl
  fresh := fun _ free => .inl free
  others := fun other _ _ => ⟨by rw [same], fun n => entry_page_congr same other n⟩
  contents := fun _ _ => by rw [same]
  kept := fun _ index present => by
    rwa [read_entry_congr pgdir index (by rw [same] : after.page pgdir = m.page pgdir)]

theorem cow_flags_small (pte : Pte) : (cowFlags pte).toNat < pgsize :=
  small_and _ (small_or (pte_flags_small pte) (by decide))

def cowPte (pte : Pte) : Pte := makePte (pteFrame pte) (cowFlags pte)

/-- The pages `n` to `n + count - 1` of `d` are new pages with the contents and the
permissions of the pages of `pgdir`. -/
structure CopiedPages (κ : Nat → Kind) (m : Mem) (κ' : Nat → Kind) (m' : Mem)
    (pgdir d n count : Nat) : Prop where
  outside : ∀ k, k < vpages → k < n ∨ n + count ≤ k → entry m' d k = entry m d k
  new : ∀ k, n ≤ k → k < n + count → ∃ frame, κ frame = .free ∧ κ' frame = .user ∧
    entry m' d k = makePte frame (pteFlags (entry m pgdir k)) ∧
    m'.page frame = m.page (pteFrame (entry m pgdir k))
  distinct : ∀ k l, n ≤ k → k < l → l < n + count →
    pteFrame (entry m' d k) ≠ pteFrame (entry m' d l)

section Forking
variable {b : Build} {κ : Nat → Kind} {m : Mem} {pgdir d : Nat}
variable (counting : b.original = false) (strict : b.kallocNull = false)
include counting strict

theorem cow_loop_spec (owned : Owned b κ none m) (dir : κ pgdir = .pgdir) (child : κ d = .pgdir)
    (apart : pgdir ≠ d) (count n : Nat) (top : n + count ≤ userPages)
    (absent : ∀ k, n ≤ k → k < n + count → entry m d k = 0) :
    Yields (cowLoop b pgdir count n (some d) m)
      (fun result => result.1 = some d ∧ ∃ κ', Owned b κ' none result.2 ∧ Grows d κ m κ' result.2 ∧
        (∀ k, n ≤ k → k < n + count → has (entry m pgdir k) pteP = true) ∧
        (∀ k, k < vpages → entry result.2 d k =
          if n ≤ k ∧ k < n + count then cowPte (entry m pgdir k) else entry m d k) ∧
        m.freelist.length ≤ result.2.freelist.length + count)
      (fun stop => (stop = .nullRun ∧ m.freelist.length < count) ∨
        Hole m pgdir (n + count) stop) := by
  induction count generalizing κ m n with
  | zero =>
    refine ⟨rfl, κ, owned, Grows.refl _ _ _, ?_, ?_, le_rfl⟩
    · intro k lower upper
      omega
    · intro k _
      rw [if_neg (by omega)]
  | succ count ih =>
    have user : n < userPages := by omega
    rw [cowLoop]
    apply (source_pte_spec m pgdir n).seq
    · intro stop hole
      exact .inr (hole.mono (fun _ => rfl) (by omega))
    rintro pte ⟨rfl, present⟩
    have isUser := owned.present_user dir user present
    have inside : pteFrame (entry m pgdir n) < maxpages := owned.bound (by simp [isUser])
    have counted : incRefCount m (p2v (pteFrame (entry m pgdir n) * pgsize)) =
        .ok (setRefCount m (pteFrame (entry m pgdir n))
          (m.refCount (pteFrame (entry m pgdir n)) + 1)) := by
      rw [incRefCount, run_index_p2v _ inside]
      rfl
    rw [counted, ok_bind]
    apply (map_user_page counting strict (owned.inc_ref isUser) child user
      (cow_flags_small (entry m pgdir n))
      ((entry_page_congr rfl d n).trans (absent n (by omega) (by omega)))).seq
    · rintro stop ⟨rfl, none⟩
      left
      refine ⟨rfl, ?_⟩
      rw [show m.freelist = [] from none, List.length_nil]
      omega
    rintro ⟨done, mapped⟩ ⟨rfl, κ1, owned1, grows, entries, cost⟩
    simp only at owned1 grows entries cost ⊢
    have counts : Grows d κ m κ (setRefCount m (pteFrame (entry m pgdir n))
        (m.refCount (pteFrame (entry m pgdir n)) + 1)) := grows_of_pages rfl
    have grows1 : Grows d κ m κ1 mapped := counts.trans grows
    have childEntries (k : Nat) (bound : k < vpages) : entry mapped d k =
        if k = n then cowPte (entry m pgdir n) else entry m d k := by
      rw [entries k bound, entry_page_congr rfl d k]
      rfl
    have parentEntries (k : Nat) : entry mapped pgdir k = entry m pgdir k :=
      (grows1.others pgdir apart dir).2 k
    have dir1 := grows1.label dir nofun
    have child1 := grows1.label child nofun
    have length : m.freelist.length ≤ mapped.freelist.length + 1 := cost
    have still (k : Nat) (lower : n + 1 ≤ k) (upper : k < n + 1 + count) :
        entry mapped d k = 0 := by
      rw [childEntries k (user_page_inside (by omega)), if_neg (by omega)]
      exact absent k (by omega) (by omega)
    refine (ih owned1 dir1 child1 (n + 1) (by omega) still).mono ?_ ?_
    · rintro result ⟨done, κ2, owned2, grows2, presents, copied, cost2⟩
      refine ⟨done, κ2, owned2, grows1.trans grows2, ?_, ?_, by omega⟩
      · intro k lower upper
        by_cases first : k = n
        · rw [first]
          exact present
        · rw [← parentEntries k]
          exact presents k (by omega) (by omega)
      · intro k bound
        rw [copied k bound, childEntries k bound, parentEntries k]
        by_cases first : k = n
        · rw [if_neg (by omega), if_pos first, if_pos (by omega), first]
        · rw [if_neg first]
          by_cases later : n + 1 ≤ k ∧ k < n + 1 + count
          · rw [if_pos later, if_pos (by omega)]
          · rw [if_neg later, if_neg (by omega)]
    · rintro stop (⟨rfl, short⟩ | hole)
      · exact .inl ⟨rfl, by omega⟩
      · exact .inr (hole.mono parentEntries (by omega))

/-- What both ways of forking have in common: a new directory `d` that maps as many pages as
the parent. -/
structure Forked (b : Build) (κ : Nat → Kind) (m : Mem) (pgdir sz d : Nat) (κ' : Nat → Kind)
    (after : Mem) : Prop where
  owned : Owned b κ' none after
  grows : Grows d κ m κ' after
  fresh : κ d = .free
  child : κ' d = .pgdir
  present : ∀ k, k < pagesUp sz → has (entry m pgdir k) pteP = true
  absent : ∀ k, pagesUp sz ≤ k → k < userPages → entry after d k = 0

section
variable (owned : Owned b κ none m) (dir : κ pgdir = .pgdir)
include owned dir

theorem cowuvm_spec {sz : Nat} (below : sz < kernbase) : Yields (cowuvm b m pgdir sz)
    (fun result => ∃ d κ', result.1 = some d ∧ Forked b κ m pgdir sz d κ' result.2 ∧
    (∀ k, k < pagesUp sz → entry result.2 d k = cowPte (entry m pgdir k)) ∧
    m.freelist.length ≤ result.2.freelist.length + 65 + pagesUp sz)
    (fun stop => (stop = .nullRun ∧ m.freelist.length < 65 + pagesUp sz) ∨
    Hole m pgdir (pagesUp sz) stop) := by
  have top := pages_up_user below
  rw [cowuvm]
  apply (setupkvm_spec counting strict owned).seq
  · rintro stop ⟨rfl, short⟩
    exact .inl ⟨rfl, by omega⟩
  rintro ⟨made, first⟩ ⟨d, κ1, rfl, fresh, child, owned1, grows1, mapped, -, cost1⟩
  simp only at owned1 grows1 mapped cost1 ⊢
  have apart : pgdir ≠ d := label_ne dir fresh nofun
  have parentEntries (k : Nat) : entry first pgdir k = entry m pgdir k :=
    (grows1.others pgdir apart dir).2 k
  have dir1 := grows1.label dir nofun
  refine (cow_loop_spec counting strict owned1 dir1 child apart (pagesUp sz) 0 (by omega)
    fun k _ upper => mapped.1 k (by omega)).mono ?_ ?_
  · rintro ⟨copy, after⟩ ⟨rfl, κ2, owned2, grows2, presents, entries, cost2⟩
    simp only at owned2 grows2 entries cost2
    refine ⟨d, κ2, rfl, ⟨owned2, grows1.trans grows2, fresh, ?_, ?_, ?_⟩, ?_, ?_⟩
    · exact grows2.label child nofun
    · intro k inside
      rw [← parentEntries k]
      exact presents k k.zero_le (by omega)
    · intro k above user
      rw [entries k (user_page_inside user), if_neg (by omega)]
      exact mapped.1 k user
    · intro k inside
      simp only
      rw [entries k (user_page_inside (by omega)), if_pos (by omega), parentEntries k]
    · simp only
      omega
  · rintro stop (⟨rfl, short⟩ | hole)
    · exact .inl ⟨rfl, by omega⟩
    · exact .inr (hole.mono parentEntries (by omega))

theorem copy_loop_spec (child : κ d = .pgdir) (apart : pgdir ≠ d) (count n : Nat)
    (top : n + count ≤ userPages)
    (absent : ∀ k, n ≤ k → k < n + count → entry m d k = 0) : Yields (copyLoop b pgdir d count n m)
    (fun result => result.1 = true ∧ ∃ κ', Owned b κ' none result.2 ∧ Grows d κ m κ' result.2 ∧
    (∀ k, n ≤ k → k < n + count → has (entry m pgdir k) pteP = true) ∧
    CopiedPages κ m κ' result.2 pgdir d n count ∧
    m.freelist.length ≤ result.2.freelist.length + 2 * count)
    (fun stop => (stop = .nullRun ∧ m.freelist.length < 2 * count) ∨
    Hole m pgdir (n + count) stop) := by
  induction count generalizing κ m n with
  | zero =>
    refine ⟨rfl, κ, owned, Grows.refl _ _ _, ?_, ⟨fun _ _ _ => rfl, ?_, ?_⟩, le_rfl⟩
    · intro k lower upper
      omega
    · intro k lower upper
      omega
    · intro k l lower less upper
      omega
  | succ count ih =>
    have user : n < userPages := by omega
    rw [copyLoop]
    apply (source_pte_spec m pgdir n).seq
    · intro stop hole
      exact .inr (hole.mono (fun _ => rfl) (by omega))
    rintro pte ⟨rfl, present⟩
    apply (kalloc_spec counting strict m).seq
    · rintro stop ⟨rfl, none⟩
      left
      refine ⟨rfl, ?_⟩
      rw [none, List.length_nil]
      omega
    rintro result ⟨frame, rest, list, rfl⟩
    apply (new_user_page counting strict owned child list (m.page (pteFrame (entry m pgdir n)))
      user (pte_flags_small (entry m pgdir n)) (absent n (by omega) (by omega))).seq
    · rintro stop ⟨rfl, short⟩
      exact .inl ⟨rfl, by omega⟩
    rintro ⟨done, mapped⟩ ⟨rfl, κ1, owned1, grows1, wasFree, isUser, content, entries, cost⟩
    simp only at owned1 grows1 content entries cost ⊢
    have parentEntries (k : Nat) : entry mapped pgdir k = entry m pgdir k :=
      (grows1.others pgdir apart dir).2 k
    have dir1 := grows1.label dir nofun
    have child1 := grows1.label child nofun
    have still (k : Nat) (lower : n + 1 ≤ k) (upper : k < n + 1 + count) :
        entry mapped d k = 0 := by
      rw [entries k (user_page_inside (by omega)), if_neg (by omega)]
      exact absent k (by omega) (by omega)
    refine (ih owned1 dir1 child1 (n + 1) (by omega) still).mono ?_ ?_
    · rintro result ⟨done, κ2, owned2, grows2, presents, pages, cost2⟩
      have firstEntry : entry result.2 d n = makePte frame (pteFlags (entry m pgdir n)) := by
        rw [pages.outside n (user_page_inside user) (by omega),
          entries n (user_page_inside user), if_pos rfl]
      have firstFrame : pteFrame (entry result.2 d n) = frame := by
        have inside : frame < maxpages := owned.bound (by simp [wasFree])
        rw [firstEntry, make_pte_frame (frame_in_space inside) (pte_flags_small _)]
      refine ⟨done, κ2, owned2, grows1.trans grows2, ?_, ⟨?_, ?_, ?_⟩, by omega⟩
      · intro k lower upper
        by_cases first : k = n
        · rw [first]
          exact present
        · rw [← parentEntries k]
          exact presents k (by omega) (by omega)
      · intro k inside outside
        rw [pages.outside k inside (by omega), entries k inside, if_neg (by omega)]
      · intro k lower upper
        by_cases first : k = n
        · subst first
          refine ⟨frame, wasFree, ?_, firstEntry, ?_⟩
          · exact grows2.label isUser nofun
          · rw [grows2.contents frame isUser, content]
        · obtain ⟨page, free1, user2, at2, content2⟩ := pages.new k (by omega) (by omega)
          rw [parentEntries k] at at2 content2
          have parentUser : κ (pteFrame (entry m pgdir k)) = .user := by
            have here := presents k (by omega) (by omega)
            rw [parentEntries k] at here
            exact owned.present_user dir (by omega) here
          refine ⟨page, grows1.was_free free1, user2, at2, ?_⟩
          rw [content2, grows1.contents _ parentUser]
      · intro k l lower less upper
        by_cases first : k = n
        · subst first
          obtain ⟨page, free1, -, at2, -⟩ := pages.new l (by omega) (by omega)
          have inside : page < maxpages := owned1.bound (by simp [free1])
          rw [firstFrame, at2, make_pte_frame (frame_in_space inside) (pte_flags_small _)]
          -- The page was free after `frame` had been taken.
          rintro rfl
          rw [isUser] at free1
          contradiction
        · exact pages.distinct k l (by omega) less (by omega)
    · rintro stop (⟨rfl, short⟩ | hole)
      · exact .inl ⟨rfl, by omega⟩
      · exact .inr (hole.mono parentEntries (by omega))

theorem copyuvm_spec {sz : Nat} (below : sz < kernbase) : Yields (copyuvm b m pgdir sz)
    (fun result => ∃ d κ', result.1 = some d ∧ Forked b κ m pgdir sz d κ' result.2 ∧
    (∀ k, k < pagesUp sz → ∃ frame, κ frame = .free ∧ κ' frame = .user ∧
    entry result.2 d k = makePte frame (pteFlags (entry m pgdir k)) ∧
    result.2.page frame = m.page (pteFrame (entry m pgdir k))) ∧ (∀ k l, k < l → l < pagesUp sz →
    pteFrame (entry result.2 d k) ≠ pteFrame (entry result.2 d l)))
    (fun stop => (stop = .nullRun ∧ m.freelist.length < 65 + 2 * pagesUp sz) ∨
    Hole m pgdir (pagesUp sz) stop) := by
  have top := pages_up_user below
  rw [copyuvm]
  apply (setupkvm_spec counting strict owned).seq
  · rintro stop ⟨rfl, short⟩
    exact .inl ⟨rfl, by omega⟩
  rintro ⟨made, first⟩ ⟨d, κ1, rfl, fresh, child, owned1, grows1, mapped, -, cost1⟩
  simp only at owned1 grows1 mapped cost1 ⊢
  have apart : pgdir ≠ d := label_ne dir fresh nofun
  have parentEntries (k : Nat) : entry first pgdir k = entry m pgdir k :=
    (grows1.others pgdir apart dir).2 k
  have dir1 := grows1.label dir nofun
  apply (copy_loop_spec counting strict owned1 dir1 child apart (pagesUp sz) 0 (by omega)
    fun k _ upper => mapped.1 k (by omega)).seq
  · rintro stop (⟨rfl, short⟩ | hole)
    · exact .inl ⟨rfl, by omega⟩
    · exact .inr (hole.mono parentEntries (by omega))
  rintro ⟨done, after⟩ ⟨rfl, κ2, owned2, grows2, presents, pages, cost2⟩
  simp only at owned2 grows2 pages cost2 ⊢
  have present (k : Nat) (inside : k < pagesUp sz) : has (entry m pgdir k) pteP = true := by
    rw [← parentEntries k]
    exact presents k k.zero_le (by omega)
  refine ⟨d, κ2, rfl, ⟨owned2, grows1.trans grows2, fresh, ?_, present, ?_⟩, ?_, ?_⟩
  · exact grows2.label child nofun
  · intro k above user
    rw [pages.outside k (user_page_inside user) (by omega)]
    exact mapped.1 k user
  · intro k inside
    obtain ⟨frame, free1, user2, at2, content⟩ := pages.new k k.zero_le (by omega)
    rw [parentEntries k] at at2 content
    refine ⟨frame, grows1.was_free free1, user2, at2, ?_⟩
    rw [content, grows1.contents _ (owned.present_user dir (by omega) (present k inside))]
  · intro k l less inside
    exact pages.distinct k l k.zero_le less (by omega)

end
end Forking
end Xv6Hacks.UserSpaces
