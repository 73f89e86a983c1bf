import Xv6Hacks.ExecSafety
import Xv6Hacks.FaultOwnership

/-!
# Copy-on-write against copying

Processes that descend from one parent read and write single bytes of their memory and
fork again. The machine is run with `cowuvm` and with `copyuvm`, and both runs are
compared with processes whose memories are private. `copyuvm` always agrees with them;
`cowuvm` leaves the parent's entries writable, and agrees as long as no write goes through
a writable entry to a shared page.
-/

namespace Xv6Hacks.CowRefinement

open Function
open AddressSpace BootMemory ByteBuffers ExecSafety FaultOwnership Kalloc Outcomes PageFault
open PageOwnership PageTables ReferenceCounts UserSpaces

variable {va i d j n : Nat}

/-- Processes are numbered in the order of their forks; the parent is process 0. -/
inductive Access where
  | fork (proc : Nat)
  | read (proc va : Nat)
  | write (proc va : Nat) (value : Byte)
  deriving DecidableEq, Repr

def Access.proc : Access → Nat
  | .fork proc => proc
  | .read proc _ => proc
  | .write proc _ _ => proc

structure Spaces where
  mem : Mem
  dirs : List Nat

abbrev Copier := Build → Mem → Nat → Nat → Except Stop (Option Nat × Mem)

def forkSpace (copier : Copier) (b : Build) (sz : Nat) (s : Spaces) (pgdir : Nat) :
    Except Stop (Spaces × Option Byte) := do
  let (made, m) ← copier b s.mem pgdir sz
  .ok ({ mem := m, dirs := s.dirs ++ made.toList }, none)

def byteAt (m : Mem) (pgdir va : Nat) : Byte :=
  m.page (pteFrame (entry m pgdir (va / pgsize))) (va % pgsize)

def load (s : Spaces) (pgdir va : Nat) : Except Stop (Spaces × Option Byte) :=
  let pte := entry s.mem pgdir (va / pgsize)
  if has pte pteP && has pte pteU then .ok (s, some (byteAt s.mem pgdir va))
  else .error .pageNotPresent

def putByte (m : Mem) (frame offset : Nat) (value : Byte) : Mem :=
  setPage m frame (update (m.page frame) offset value)

def storeHits (m : Mem) (pgdir va : Nat) : Bool :=
  let pte := entry m pgdir (va / pgsize)
  has pte pteP && has pte pteU && has pte pteW

def hit (s : Spaces) (m : Mem) (pgdir va : Nat) (value : Byte) : Spaces :=
  { s with mem := putByte m (pteFrame (entry m pgdir (va / pgsize))) (va % pgsize) value }

/-- A store that faults is tried once more after the handler. -/
def store (b : Build) (s : Spaces) (pgdir va : Nat) (value : Byte) :
    Except Stop (Spaces × Option Byte) :=
  if storeHits s.mem pgdir va then .ok (hit s s.mem pgdir va value, none)
  else do
    let m ← pgflthandler b s.mem pgdir va
    if storeHits m pgdir va then .ok (hit s m pgdir va value, none)
    else .error .pageNotPresent

/-- An access of a process that exists to an address below `sz`; others do nothing. -/
def access (copier : Copier) (b : Build) (sz : Nat) (s : Spaces) (a : Access) :
    Except Stop (Spaces × Option Byte) :=
  match s.dirs[a.proc]? with
  | none => .ok (s, none)
  | some pgdir =>
    match a with
    | .fork _ => forkSpace copier b sz s pgdir
    | .read _ va => if va < sz then load s pgdir va else .ok (s, none)
    | .write _ va value => if va < sz then store b s pgdir va value else .ok (s, none)

def reads (copier : Copier) (b : Build) (sz : Nat) (s : Spaces) :
    List Access → Except Stop (List Byte)
  | [] => .ok []
  | a :: rest => do
    let (s', value) ← access copier b sz s a
    let later ← reads copier b sz s' rest
    .ok (value.toList ++ later)

abbrev View := Nat → Byte

def privateAccess (sz : Nat) (views : List View) (a : Access) : List View × Option Byte :=
  match views[a.proc]? with
  | none => (views, none)
  | some view =>
    match a with
    | .fork _ => (views ++ [view], none)
    | .read _ va => (views, if va < sz then some (view va) else none)
    | .write proc va value =>
      (if va < sz then views.set proc (update view va value) else views, none)

def privateReads (sz : Nat) (views : List View) : List Access → List Byte
  | [] => []
  | a :: rest =>
    let result := privateAccess sz views a
    result.2.toList ++ privateReads sz result.1 rest

/-- The directories show the views. `start` has the entries of process 0, which no access
changes. -/
structure Shown (b : Build) (sz : Nat) (start : Nat → Pte) (κ : Nat → Kind) (s : Spaces)
    (views : List View) : Prop where
  owned : Owned b κ none s.mem
  below : sz < kernbase
  length : views.length = s.dirs.length
  live : ∀ {i d : Nat}, s.dirs[i]? = some d → κ d = .pgdir
  once : s.dirs.Nodup
  nonempty : s.dirs ≠ []
  accessible : ∀ {i d : Nat}, s.dirs[i]? = some d → ∀ n, n < pagesUp sz → Accessible s.mem d n false
  seen : ∀ {i d : Nat} {view : View}, s.dirs[i]? = some d → views[i]? = some view →
    ∀ va, va < sz → byteAt s.mem d va = view va
  root : ∀ {d : Nat}, s.dirs[0]? = some d → ∀ n, n < pagesUp sz → entry s.mem d n = start n
  writable : ∀ n, n < pagesUp sz → has (start n) pteW = true

variable {b : Build} {sz : Nat} {start : Nat → Pte} {κ : Nat → Kind} {s : Spaces}
  {views : List View} {view : View}

theorem address_page (inside : va < sz) : va / pgsize < pagesUp sz := by
  rw [pagesUp, pgsize]
  omega

section
variable (shown : Shown b sz start κ s views)
include shown

theorem Shown.view_of_dir (proc : s.dirs[i]? = some d) : ∃ view, views[i]? = some view := by
  have inside : i < s.dirs.length := (List.getElem?_eq_some_iff.mp proc).1
  rw [← shown.length] at inside
  exact ⟨views[i], List.getElem?_eq_getElem inside⟩

theorem Shown.no_view (absent : s.dirs[i]? = none) : views[i]? = none := by
  rw [List.getElem?_eq_none_iff] at absent ⊢
  rw [shown.length]
  exact absent

theorem Shown.same_proc (left : s.dirs[i]? = some d) (right : s.dirs[j]? = some d) : i = j := by
  have inside : i < s.dirs.length := (List.getElem?_eq_some_iff.mp left).1
  exact (List.getElem?_inj inside shown.once).mp (left.trans right.symm)

theorem Shown.user_page (proc : s.dirs[i]? = some d) (inside : n < pagesUp sz) :
    n < userPages ∧ κ (pteFrame (entry s.mem d n)) = .user := by
  have page : n < userPages := inside.trans_le (pages_up_user shown.below)
  exact ⟨page, shown.owned.present_user (shown.live proc) page (shown.accessible proc n inside).1⟩

end

theorem put_byte_writes {m : Mem} {frame : Nat} (user : κ frame = .user) (offset : Nat)
    (value : Byte) : UserWrites κ m (putByte m frame offset value) :=
  user_writes_set_page user _

theorem Shown.hit_entries (shown : Shown b sz start κ s views) (proc : s.dirs[i]? = some d)
    (inside : va < sz) (value : Byte) {d' : Nat} (at' : s.dirs[j]? = some d') (n : Nat) :
    entry (hit s s.mem d va value).mem d' n = entry s.mem d' n := by
  have writes := put_byte_writes (m := s.mem) (shown.user_page proc (address_page inside)).2
    (va % pgsize) value
  exact ((writes.touches shown.owned).others d' (fun none => none) (shown.live at')).2 n

theorem Shown.store_hit (shown : Shown b sz start κ s views) (proc : s.dirs[i]? = some d)
    (viewed : views[i]? = some view) (inside : va < sz)
    (alone : ∀ {j d' : Nat} (k : Nat), s.dirs[j]? = some d' → k < pagesUp sz →
    pteFrame (entry s.mem d' k) = pteFrame (entry s.mem d (va / pgsize)) →
    j = i ∧ k = va / pgsize) (value : Byte) : Shown b sz start κ (hit s s.mem d va value)
    (views.set i (update view va value)) := by
  have writes := put_byte_writes (m := s.mem) (shown.user_page proc (address_page inside)).2
    (va % pgsize) value
  have entries {j d' : Nat} (at' : s.dirs[j]? = some d') (n : Nat) :=
    shown.hit_entries proc inside value at' n
  refine
    { owned := writes.owned shown.owned
      below := shown.below
      length := (List.length_set ..).trans shown.length
      live := shown.live
      once := shown.once
      nonempty := shown.nonempty
      accessible := ?_
      seen := ?_
      root := ?_
      writable := shown.writable }
  · intro j d' at' n small
    rw [Accessible, entries at']
    exact shown.accessible at' n small
  · intro j d' view' at' viewed' va' inside'
    rw [byteAt, entries at']
    by_cases here : pteFrame (entry s.mem d' (va' / pgsize)) =
        pteFrame (entry s.mem d (va / pgsize))
    · obtain ⟨rfl, samePage⟩ := alone _ at' (address_page inside') here
      have newView : view' = update view va value := by
        rw [List.getElem?_set_self (List.getElem?_eq_some_iff.mp viewed).1] at viewed'
        exact (Option.some.inj viewed').symm
      rw [here, hit, putByte, set_page_same, newView]
      by_cases sameOffset : va' % pgsize = va % pgsize
      · have same : va' = va := by
          rw [← Nat.div_add_mod va' pgsize, samePage, sameOffset, Nat.div_add_mod]
        rw [same, update_self, update_self]
      · rw [update_of_ne sameOffset, update_of_ne fun same =>
          sameOffset (by rw [same]), ← samePage]
        have sameDir : d = d' := Option.some.inj (proc.symm.trans at')
        rw [sameDir]
        exact shown.seen at' viewed va' inside'
    · rw [hit, putByte, set_page_other _ _ _ _ here]
      by_cases sameProc : i = j
      · subst sameProc
        rw [List.getElem?_set_self (List.getElem?_eq_some_iff.mp viewed).1] at viewed'
        cases viewed'
        rw [update_of_ne fun same => ?_]
        · exact shown.seen at' viewed va' inside'
        · rw [same, Option.some.inj (proc.symm.trans at')] at here
          exact here rfl
      · rw [List.getElem?_set_ne sameProc] at viewed'
        exact shown.seen at' viewed' va' inside'
  · intro d' at' n small
    rw [entries at']
    exact shown.root at' n small

theorem appended_cases {dirs : List Nat} {d' : Nat} (at' : (dirs ++ [d])[j]? = some d') :
    dirs[j]? = some d' ∨ (j = dirs.length ∧ d' = d) := by
  by_cases old : j < dirs.length
  · rw [List.getElem?_append_left old] at at'
    exact .inl at'
  · rw [List.getElem?_append_right (by omega)] at at'
    right
    rcases position : j - dirs.length with _ | more
    · rw [position] at at'
      exact ⟨by omega, (Option.some.inj at').symm⟩
    · rw [position] at at'
      cases at'

section
variable (shown : Shown b sz start κ s views)
include shown

theorem Shown.fork {pgdir : Nat} {κ' : Nat → Kind} {after : Mem} (proc : s.dirs[i]? = some pgdir)
    (viewed : views[i]? = some view) (forked : Forked b κ s.mem pgdir sz d κ' after)
    (pages : ∀ n, n < pagesUp sz → Accessible after d n false ∧
      after.page (pteFrame (entry after d n)) = s.mem.page (pteFrame (entry s.mem pgdir n))) :
    Shown b sz start κ' { mem := after, dirs := s.dirs ++ [d] } (views ++ [view]) := by
  have fresh {j d' : Nat} (at' : s.dirs[j]? = some d') : d' ≠ d := by
    rintro rfl
    exact absurd forked.fresh (by rw [shown.live at']; simp)
  have entries {j d' : Nat} (at' : s.dirs[j]? = some d') (n : Nat) :
      entry after d' n = entry s.mem d' n :=
    (forked.grows.others d' (fresh at') (shown.live at')).2 n
  refine
    { owned := forked.owned
      below := shown.below
      length := by simp [shown.length]
      live := ?_
      once := ?_
      nonempty := by simp
      accessible := ?_
      seen := ?_
      root := ?_
      writable := shown.writable }
  · intro j d' at'
    rcases appended_cases at' with old | ⟨-, rfl⟩
    · rw [forked.grows.kinds d' (by rw [shown.live old]; simp), shown.live old]
    · exact forked.child
  · rw [List.nodup_append]
    refine ⟨shown.once, List.nodup_singleton d, ?_⟩
    intro d' member other isNew
    rw [List.mem_singleton.mp isNew]
    obtain ⟨j, at'⟩ := List.mem_iff_getElem?.mp member
    exact fresh at'
  · intro j d' at' n small
    rcases appended_cases at' with old | ⟨-, rfl⟩
    · rw [Accessible, entries old]
      exact shown.accessible old n small
    · exact (pages n small).1
  · intro j d' view' at' viewed' va inside
    rcases appended_cases at' with old | ⟨last, rfl⟩
    · have position : j < views.length := by
        rw [shown.length]
        exact (List.getElem?_eq_some_iff.mp old).1
      rw [List.getElem?_append_left position] at viewed'
      rw [byteAt, entries old,
        forked.grows.contents _ (shown.user_page old (address_page inside)).2]
      exact shown.seen old viewed' va inside
    · rw [last, ← shown.length, List.getElem?_concat_length] at viewed'
      cases viewed'
      rw [byteAt, (pages _ (address_page inside)).2]
      exact shown.seen proc viewed va inside
  · intro d' at' n small
    rcases appended_cases at' with old | ⟨none, -⟩
    · rw [entries old]
      exact shown.root old n small
    · have position := (List.getElem?_eq_some_iff.mp proc).1
      omega

theorem Shown.fault {κ' : Nat → Kind} {m' : Mem} (proc : s.dirs[i]? = some d) (notRoot : i ≠ 0)
    (faulted : Faulted b κ s.mem d n κ' m') :
    Shown b sz start κ' { s with mem := m' } views := by
  have entries {j d' : Nat} (at' : s.dirs[j]? = some d') {k : Nat} (user : k < userPages)
      (other : ¬ (d' = d ∧ k = n)) : entry m' d' k = entry s.mem d' k := by
    by_cases same : d' = d
    · rw [same]
      exact faulted.entries k (user_page_inside user) fun isPage => other ⟨same, isPage⟩
    · exact (faulted.grows.others d' same (shown.live at')).2 k
  refine
    { owned := faulted.owned
      below := shown.below
      length := shown.length
      live := ?_
      once := shown.once
      nonempty := shown.nonempty
      accessible := ?_
      seen := ?_
      root := ?_
      writable := shown.writable }
  · intro j d' at'
    rw [faulted.grows.kinds d' (by rw [shown.live at']; simp), shown.live at']
  · intro j d' at' k small
    by_cases here : d' = d ∧ k = n
    · rw [here.1, here.2]
      exact ⟨faulted.accessible.1, faulted.accessible.2.1, fun write => absurd write (by simp)⟩
    · rw [Accessible, entries at' (shown.user_page at' small).1 here]
      exact shown.accessible at' k small
  · intro j d' view at' viewed va inside
    have user := shown.user_page at' (address_page inside)
    rw [← shown.seen at' viewed va inside, byteAt, byteAt]
    by_cases here : d' = d ∧ va / pgsize = n
    · rw [here.1, here.2, faulted.contents]
    · rw [entries at' user.1 here, faulted.grows.contents _ user.2]
  · intro d' at' k small
    rw [entries at' (shown.user_page at' small).1, shown.root at' k small]
    rintro ⟨rfl, -⟩
    exact notRoot (shown.same_proc proc at')

theorem Shown.unshared_alone (proc : s.dirs[i]? = some d) (inside : n < pagesUp sz)
    (unshared : Unshared s.mem d n) {d' : Nat} (k : Nat) (at' : s.dirs[j]? = some d')
    (small : k < pagesUp sz)
    (same : pteFrame (entry s.mem d' k) = pteFrame (entry s.mem d n)) : j = i ∧ k = n := by
  have target {l e : Nat} (which : s.dirs[l]? = some e) {page : Nat} (below : page < pagesUp sz) :
      PageOwnership.target κ s.mem (e, page) = some (pteFrame (entry s.mem e page)) := by
    rw [PageOwnership.target, if_pos (shown.live which), pteTarget,
      if_pos (shown.accessible which page below).1]
  have user := shown.user_page proc inside
  have count := shown.owned.user_count user.2
  have unheld : share none (pteFrame (entry s.mem d n)) = 0 := rfl
  rw [unheld] at count
  have single : mappings κ s.mem (pteFrame (entry s.mem d n)) ≤ 1 := by
    rw [Unshared] at unshared
    omega
  have place := refs_unique single
    (places_mem shown.owned (shown.live at') (shown.user_page at' small).1)
    (places_mem shown.owned (shown.live proc) user.1)
    ((target at' small).trans (congrArg some same)) (target proc inside)
  injection place with sameDir samePage
  rw [sameDir] at at'
  exact ⟨shown.same_proc at' proc, samePage⟩

theorem Shown.load_spec (proc : s.dirs[i]? = some d) (viewed : views[i]? = some view)
    (inside : va < sz) : load s d va = .ok (s, some (view va)) := by
  obtain ⟨present, user, -⟩ := shown.accessible proc _ (address_page inside)
  rw [load, shown.seen proc viewed va inside]
  simp only [present, user, Bool.and_self, ↓reduceIte]

theorem Shown.access_spec {copier : Copier} {a : Access} (kept : Spaces → List View → Prop)
    {stops : Stop → Prop} (idle : kept s views)
    (forks : ∀ {i d : Nat} {view : View}, s.dirs[i]? = some d → views[i]? = some view →
    Yields (forkSpace copier b sz s d)
    (fun result => result.2 = none ∧ kept result.1 (views ++ [view])) stops)
    (stores : ∀ {i d va : Nat} {view : View} {value : Byte}, a = .write i va value →
    s.dirs[i]? = some d → views[i]? = some view → va < sz →
    Yields (store b s d va value) (fun result => result.2 = none ∧
    kept result.1 (views.set i (update view va value))) stops) : Yields (access copier b sz s a)
    (fun result => result.2 = (privateAccess sz views a).2 ∧
    kept result.1 (privateAccess sz views a).1) stops := by
  rw [access, privateAccess]
  cases proc : s.dirs[a.proc]? with
  | none =>
    rw [shown.no_view proc]
    exact ⟨rfl, idle⟩
  | some d =>
    obtain ⟨view, viewed⟩ := shown.view_of_dir proc
    rw [viewed]
    cases a with
    | fork i => exact forks proc viewed
    | read i va =>
      simp only
      split
      · rename_i inside
        rw [shown.load_spec proc viewed inside]
        exact ⟨rfl, idle⟩
      · exact ⟨rfl, idle⟩
    | write i va value =>
      simp only
      split
      · rename_i inside
        exact stores rfl proc viewed inside
      · exact ⟨rfl, idle⟩

end

section Entries
variable (pte : Pte)

theorem cow_pte_bit (bit : Nat) (low : bit < 12) (positive : 0 < bit) :
    (cowPte pte).getLsbD bit = ((pte.getLsbD bit || pteCow.getLsbD bit) &&
    !(pteW ||| pteP).getLsbD bit) := by
  rw [cowPte, make_pte_bit bit low, cowFlags, BitVec.getLsbD_and, BitVec.getLsbD_or,
    pte_flags_bit pte bit low, BitVec.getLsbD_not]
  simp [show bit < 32 by omega, show bit ≠ 0 by omega]

theorem cow_pte_user : has (cowPte pte) pteU = has pte pteU := by
  rw [has_user, has_user, cow_pte_bit pte 2 (by decide) (by decide)]
  simp [pteCow, pteW, pteP]

theorem cow_pte_marked : has (cowPte pte) pteCow = true := by
  rw [has_cow, cow_pte_bit pte 11 (by decide) (by decide)]
  simp [pteCow, pteW, pteP]

theorem cow_pte_read_only : has (cowPte pte) pteW = false := by
  rw [has_write, cow_pte_bit pte 1 (by decide) (by decide)]
  simp [pteCow, pteW, pteP]

theorem cow_pte_frame : pteFrame (cowPte pte) = pteFrame pte := by
  refine make_pte_frame ?_ (cow_flags_small pte)
  rw [pteFrame, vpages, npdentries, nptentries, pgsize]
  omega

end Entries

structure CowShown (b : Build) (sz : Nat) (start : Nat → Pte) (κ : Nat → Kind) (s : Spaces)
    (views : List View) : Prop extends Shown b sz start κ s views where
  marked : ∀ {i d : Nat}, s.dirs[i]? = some d → ∀ n, n < pagesUp sz →
    has (entry s.mem d n) pteW = true ∨ has (entry s.mem d n) pteCow = true

/-- The access does not store through a writable entry to a shared page. -/
def PrivateStore (sz : Nat) (s : Spaces) : Access → Prop
  | .write proc va _ => ∀ pgdir, s.dirs[proc]? = some pgdir → va < sz →
      has (entry s.mem pgdir (va / pgsize)) pteW = true → Unshared s.mem pgdir (va / pgsize)
  | _ => True

section CopyOnWrite
theorem CowShown.store_hit (shown : CowShown b sz start κ s views) (proc : s.dirs[i]? = some d)
    (viewed : views[i]? = some view) (inside : va < sz) (unshared : Unshared s.mem d (va / pgsize))
    (value : Byte) : CowShown b sz start κ (hit s s.mem d va value)
      (views.set i (update view va value)) where
  toShown := shown.toShown.store_hit proc viewed inside
    (shown.unshared_alone proc (address_page inside) unshared) value
  marked := by
    intro j d' at' n small
    rw [shown.hit_entries proc inside value at' n]
    exact shown.marked at' n small

theorem CowShown.fault (shown : CowShown b sz start κ s views) {κ' : Nat → Kind} {m' : Mem}
    (proc : s.dirs[i]? = some d) (notRoot : i ≠ 0) (faulted : Faulted b κ s.mem d n κ' m') :
    CowShown b sz start κ' { s with mem := m' } views where
  toShown := shown.toShown.fault proc notRoot faulted
  marked := by
    intro j d' at' k small
    have page := (shown.user_page at' small).1
    by_cases same : d' = d
    · subst same
      by_cases here : k = n
      · rw [here]
        exact .inl (faulted.accessible.2.2 rfl)
      · rw [faulted.entries k (user_page_inside page) here]
        exact shown.marked at' k small
    · rw [(faulted.grows.others d' same (shown.live at')).2 k]
      exact shown.marked at' k small

variable (counting : b.original = false) (strict : b.kallocNull = false)
include counting strict

theorem cow_fork_spec (shown : CowShown b sz start κ s views) (proc : s.dirs[i]? = some d)
    (viewed : views[i]? = some view) : Yields (forkSpace cowuvm b sz s d)
    (fun result => result.2 = none ∧ ∃ κ', CowShown b sz start κ' result.1 (views ++ [view]))
    (fun stop => stop = .nullRun) := by
  rw [forkSpace]
  apply (cowuvm_spec counting strict shown.owned (shown.live proc) shown.below).seq
  · rintro stop (⟨rfl, -⟩ | ⟨-, k, small, absent⟩)
    · rfl
    · rw [(shown.accessible proc k small).1] at absent
      contradiction
  rintro ⟨made, after⟩ ⟨child, κ', rfl, forked, entries, -⟩
  simp only at forked entries ⊢
  have pages (n : Nat) (small : n < pagesUp sz) : Accessible after child n false ∧
      after.page (pteFrame (entry after child n)) = s.mem.page (pteFrame (entry s.mem d n)) := by
    rw [Accessible, entries n small, cow_pte_user, cow_pte_frame,
      forked.grows.contents _ (shown.user_page proc small).2]
    exact ⟨⟨make_pte_present, (shown.accessible proc n small).2.1, fun write => by cases write⟩,
      rfl⟩
  refine ⟨rfl, κ', { toShown := shown.toShown.fork proc viewed forked pages, marked := ?_ }⟩
  intro j d' at' n small
  rcases appended_cases at' with old | ⟨-, rfl⟩
  · have different : d' ≠ child := by
      rintro rfl
      exact absurd forked.fresh (by rw [shown.live old]; simp)
    rw [(forked.grows.others d' different (shown.live old)).2 n]
    exact shown.marked old n small
  · right
    rw [entries n small]
    exact cow_pte_marked _

theorem cow_store_spec (shown : CowShown b sz start κ s views) (proc : s.dirs[i]? = some d)
    (viewed : views[i]? = some view) (inside : va < sz) (value : Byte)
    (guarded : PrivateStore sz s (.write i va value)) : Yields (store b s d va value)
    (fun result => result.2 = none ∧ ∃ κ', CowShown b sz start κ' result.1
    (views.set i (update view va value))) (fun stop => stop = .nullRun) := by
  have small := address_page inside
  obtain ⟨present, user, -⟩ := shown.accessible proc _ small
  rw [store]
  by_cases write : has (entry s.mem d (va / pgsize)) pteW = true
  · rw [if_pos (by simp only [storeHits, present, user, write, Bool.and_self])]
    exact ⟨rfl, κ, shown.store_hit proc viewed inside (guarded d proc inside write) value⟩
  · rw [if_neg (by simp only [storeHits, present, user, Bool.not_eq_true] at write ⊢; simp [write])]
    -- The entries of the parent are writable, so only a child faults.
    have notRoot : i ≠ 0 := by
      rintro rfl
      rw [shown.root proc _ small] at write
      exact write (shown.writable _ small)
    apply (pgflthandler_spec counting strict shown.owned (shown.live proc)
      (shown.user_page proc small).1 user).seq
    · rintro stop (⟨rfl, -⟩ | ⟨-, unmarked⟩)
      · rfl
      · rcases shown.marked proc _ small with writable | marked
        · exact absurd writable write
        · rw [marked] at unmarked
          cases unmarked
    rintro m ⟨κ', faulted⟩
    obtain ⟨present', user', write'⟩ := faulted.accessible
    rw [if_pos (by simp only [storeHits, present', user', write' rfl, Bool.and_self])]
    exact ⟨rfl, κ', (shown.fault proc notRoot faulted).store_hit proc viewed inside
      faulted.unshared value⟩

theorem cow_access_spec (shown : CowShown b sz start κ s views) {a : Access}
    (guarded : PrivateStore sz s a) : Yields (access cowuvm b sz s a)
    (fun result => result.2 = (privateAccess sz views a).2 ∧
    ∃ κ', CowShown b sz start κ' result.1 (privateAccess sz views a).1)
    (fun stop => stop = .nullRun) := by
  refine shown.access_spec (fun s views => ∃ κ', CowShown b sz start κ' s views) ⟨κ, shown⟩
    (cow_fork_spec counting strict shown) ?_
  rintro i d va view value rfl proc viewed inside
  exact cow_store_spec counting strict shown proc viewed inside value guarded

def AllPrivate (b : Build) (sz : Nat) (s : Spaces) : List Access → Prop
  | [] => True
  | a :: rest => PrivateStore sz s a ∧
      ∀ s' value, access cowuvm b sz s a = .ok (s', value) → AllPrivate b sz s' rest

def RootAlone (sz : Nat) (start : Nat → Pte) : Access → Prop
  | .write proc va _ => proc = 0 → va < sz → ∀ k, k < pagesUp sz →
      pteFrame (start k) = pteFrame (start (va / pgsize)) → k = va / pgsize
  | _ => True

omit counting strict in
theorem CowShown.root_alone (shown : CowShown b sz start κ s views) {a : Access}
    (guarded : PrivateStore sz s a) : RootAlone sz start a := by
  cases a with
  | fork i => exact trivial
  | read i va => exact trivial
  | write i va value =>
    rintro rfl inside k small same
    obtain ⟨d, rest, dirs⟩ := List.exists_cons_of_ne_nil shown.nonempty
    have proc : s.dirs[0]? = some d := by
      rw [dirs]
      rfl
    have writable : has (entry s.mem d (va / pgsize)) pteW = true := by
      rw [shown.root proc _ (address_page inside)]
      exact shown.writable _ (address_page inside)
    rw [← shown.root proc k small, ← shown.root proc _ (address_page inside)] at same
    exact (shown.unshared_alone proc (address_page inside)
      (guarded d proc inside writable) k proc small same).2

theorem cow_reads_spec (accesses : List Access) (shown : CowShown b sz start κ s views)
    (guarded : AllPrivate b sz s accesses) : Yields (reads cowuvm b sz s accesses)
    (fun bytes => bytes = privateReads sz views accesses ∧ ∀ a ∈ accesses, RootAlone sz start a)
    (fun stop => stop = .nullRun) := by
  induction accesses generalizing κ s views with
  | nil => exact ⟨rfl, fun a none => absurd none List.not_mem_nil⟩
  | cons a rest ih =>
    rw [reads, privateReads]
    have first := cow_access_spec counting strict shown guarded.1
    apply (first.and fun result returned => guarded.2 result.1 result.2 returned).bind
    rintro ⟨s', value⟩ ⟨⟨same, κ', shown'⟩, guarded'⟩
    simp only at same shown' guarded' ⊢
    apply (ih shown' guarded').bind
    rintro later ⟨laterSame, alone⟩
    refine ⟨by rw [same, laterSame], ?_⟩
    intro b member
    rcases List.mem_cons.mp member with rfl | later
    · exact shown.root_alone guarded.1
    · exact alone b later

end CopyOnWrite

/-- Every page can be written, and only process 0 may map a page more than once. -/
structure CopyShown (b : Build) (sz : Nat) (start : Nat → Pte) (κ : Nat → Kind) (s : Spaces)
    (views : List View) : Prop extends Shown b sz start κ s views where
  plain : ∀ {i d : Nat}, s.dirs[i]? = some d → ∀ n, n < pagesUp sz →
    has (entry s.mem d n) pteW = true
  apart : ∀ {i j d d' : Nat} (n k : Nat), s.dirs[i]? = some d → s.dirs[j]? = some d' →
    n < pagesUp sz → k < pagesUp sz →
    pteFrame (entry s.mem d n) = pteFrame (entry s.mem d' k) → i = j ∧ (n = k ∨ i = 0)

section Copying
theorem copy_store_spec (shown : CopyShown b sz start κ s views) (proc : s.dirs[i]? = some d)
    (viewed : views[i]? = some view) (inside : va < sz) (value : Byte)
    (alone : RootAlone sz start (.write i va value)) :
    store b s d va value = .ok (hit s s.mem d va value, none) ∧
    CopyShown b sz start κ (hit s s.mem d va value) (views.set i (update view va value)) := by
  have small := address_page inside
  obtain ⟨present, user, -⟩ := shown.accessible proc _ small
  have entries {j d' : Nat} (at' : s.dirs[j]? = some d') (n : Nat) :=
    shown.hit_entries proc inside value at' n
  constructor
  · rw [store, if_pos (by simp only [storeHits, present, user, shown.plain proc _ small,
      Bool.and_self])]
  refine { toShown := shown.toShown.store_hit proc viewed inside ?_ value, plain := ?_, apart := ?_ }
  · intro j d' k at' below same
    obtain ⟨rfl, samePage | isRoot⟩ := shown.apart _ _ at' proc below small same
    · exact ⟨rfl, samePage⟩
    · subst isRoot
      have sameDir : d' = d := Option.some.inj (at'.symm.trans proc)
      rw [sameDir, shown.root proc k below, shown.root proc _ small] at same
      exact ⟨rfl, alone rfl inside k below same⟩
  · intro j d' at' n below
    rw [entries at' n]
    exact shown.plain at' n below
  · intro j l d' e n k at' at'' below below'
    rw [entries at' n, entries at'' k]
    exact shown.apart n k at' at'' below below'

variable (counting : b.original = false) (strict : b.kallocNull = false)
include counting strict

theorem copy_fork_spec (shown : CopyShown b sz start κ s views) (proc : s.dirs[i]? = some d)
    (viewed : views[i]? = some view) : Yields (forkSpace copyuvm b sz s d)
    (fun result => result.2 = none ∧ ∃ κ', CopyShown b sz start κ' result.1 (views ++ [view]))
    (fun stop => stop = .nullRun) := by
  rw [forkSpace]
  apply (copyuvm_spec counting strict shown.owned (shown.live proc) shown.below).seq
  · rintro stop (⟨rfl, -⟩ | ⟨-, k, small, absent⟩)
    · rfl
    · rw [(shown.accessible proc k small).1] at absent
      contradiction
  rintro ⟨made, after⟩ ⟨child, κ', rfl, forked, copies, distinct⟩
  simp only at forked copies distinct ⊢
  have copied (n : Nat) (small : n < pagesUp sz) : ∃ frame, κ frame = .free ∧
      entry after child n = makePte frame (pteFlags (entry s.mem d n)) ∧
      pteFrame (entry after child n) = frame ∧
      after.page frame = s.mem.page (pteFrame (entry s.mem d n)) := by
    obtain ⟨frame, free, user, at', content⟩ := copies n small
    refine ⟨frame, free, at', ?_, content⟩
    rw [at']
    exact make_pte_frame (frame_in_space (forked.owned.bound (by simp [user])))
      (pte_flags_small _)
  have flag {n bit : Nat} (small : n < pagesUp sz) (low : bit < 12) (positive : 0 < bit) :
      (entry after child n).getLsbD bit = (entry s.mem d n).getLsbD bit := by
    obtain ⟨frame, -, at', -⟩ := copied n small
    rw [at', make_pte_bit bit low, pte_flags_bit _ bit low]
    simp [show bit ≠ 0 by omega]
  have pages (n : Nat) (small : n < pagesUp sz) : Accessible after child n false ∧
      after.page (pteFrame (entry after child n)) = s.mem.page (pteFrame (entry s.mem d n)) := by
    obtain ⟨frame, -, at', isFrame, content⟩ := copied n small
    rw [isFrame, content, Accessible]
    refine ⟨⟨?_, ?_, fun write => by cases write⟩, rfl⟩
    · rw [at']
      exact make_pte_present
    · have user := (shown.accessible proc n small).2.1
      rw [has_user] at user ⊢
      rw [flag small (by decide) (by decide), user]
  have old_entries {j d' : Nat} (old : s.dirs[j]? = some d') (n : Nat) :
      entry after d' n = entry s.mem d' n := by
    refine (forked.grows.others d' ?_ (shown.live old)).2 n
    rintro rfl
    exact absurd forked.fresh (by rw [shown.live old]; simp)
  -- The pages of the child were free, those of the others were not.
  have new_page {j d' : Nat} (old : s.dirs[j]? = some d') {n k : Nat} (small : n < pagesUp sz)
      (small' : k < pagesUp sz) : pteFrame (entry s.mem d' n) ≠ pteFrame (entry after child k) := by
    intro same
    obtain ⟨frame, free, -, isFrame, -⟩ := copied k small'
    rw [isFrame] at same
    have user := (shown.user_page old small).2
    rw [same, free] at user
    cases user
  refine ⟨rfl, κ', { toShown := shown.toShown.fork proc viewed forked pages, plain := ?_, apart := ?_ }⟩
  · intro j d' at' n small
    rcases appended_cases at' with old | ⟨-, rfl⟩
    · rw [old_entries old n]
      exact shown.plain old n small
    · have write := shown.plain proc n small
      rw [has_write] at write ⊢
      rw [flag small (by decide) (by decide), write]
  · intro j l d' e n k at' at'' small small' same
    rcases appended_cases at' with old | ⟨last, rfl⟩
    · rcases appended_cases at'' with old' | ⟨-, rfl⟩
      · rw [old_entries old, old_entries old'] at same
        exact shown.apart n k old old' small small' same
      · rw [old_entries old] at same
        exact absurd same (new_page old small small')
    · rcases appended_cases at'' with old' | ⟨last', rfl⟩
      · rw [old_entries old'] at same
        exact absurd same.symm (new_page old' small' small)
      · refine ⟨last.trans last'.symm, .inl ?_⟩
        rcases Nat.lt_trichotomy n k with less | equal | more
        · exact absurd same (distinct n k less small')
        · exact equal
        · exact absurd same.symm (distinct k n more small)

theorem copy_access_spec (shown : CopyShown b sz start κ s views) {a : Access}
    (alone : RootAlone sz start a) : Yields (access copyuvm b sz s a)
    (fun result => result.2 = (privateAccess sz views a).2 ∧
    ∃ κ', CopyShown b sz start κ' result.1 (privateAccess sz views a).1)
    (fun stop => stop = .nullRun) := by
  refine shown.access_spec (fun s views => ∃ κ', CopyShown b sz start κ' s views) ⟨κ, shown⟩
    (copy_fork_spec counting strict shown) ?_
  rintro i d va view value rfl proc viewed inside
  obtain ⟨done, shown'⟩ := copy_store_spec shown proc viewed inside value alone
  rw [done]
  exact ⟨rfl, κ, shown'⟩

theorem copy_reads_spec (accesses : List Access) (shown : CopyShown b sz start κ s views)
    (alone : ∀ a ∈ accesses, RootAlone sz start a) : Yields (reads copyuvm b sz s accesses)
    (fun bytes => bytes = privateReads sz views accesses) (fun stop => stop = .nullRun) := by
  induction accesses generalizing κ s views with
  | nil => exact rfl
  | cons a rest ih =>
    rw [reads, privateReads]
    apply (copy_access_spec counting strict shown (alone a (.head _))).bind
    rintro ⟨s', value⟩ ⟨same, κ', shown'⟩
    simp only at same shown' ⊢
    apply (ih shown' fun a later => alone a (.tail _ later)).bind
    intro later laterSame
    exact congrArg₂ _ (congrArg _ same) laterSame

end Copying

section Start
variable {m : Mem} {pgdir : Nat} (owned : Owned b κ none m) (dir : κ pgdir = .pgdir)
  (below : sz < kernbase) (accessible : ∀ n, n < pagesUp sz → Accessible m pgdir n true)
include owned dir below accessible

theorem start_shown :
    Shown b sz (entry m pgdir) κ { mem := m, dirs := [pgdir] } [byteAt m pgdir] := by
  have only {i d : Nat} (proc : [pgdir][i]? = some d) : i = 0 ∧ d = pgdir := by
    obtain ⟨inside, same⟩ := List.getElem?_eq_some_iff.mp proc
    have zero : i = 0 := by simpa using inside
    subst zero
    exact ⟨rfl, same.symm⟩
  refine
    { owned := owned
      below := below
      length := rfl
      live := ?_
      once := List.nodup_singleton pgdir
      nonempty := by simp
      accessible := ?_
      seen := ?_
      root := ?_
      writable := fun n small => (accessible n small).2.2 rfl }
  · intro i d proc
    rw [(only proc).2, dir]
  · intro i d proc n small
    rw [(only proc).2]
    exact ⟨(accessible n small).1, (accessible n small).2.1, fun write => by cases write⟩
  · intro i d view proc viewed va inside
    obtain ⟨rfl, rfl⟩ := only proc
    cases viewed
    rfl
  · intro d proc n small
    rw [(only proc).2]

theorem start_cow :
    CowShown b sz (entry m pgdir) κ { mem := m, dirs := [pgdir] } [byteAt m pgdir] where
  toShown := start_shown owned dir below accessible
  marked := by
    intro i d proc n small
    have member : d ∈ [pgdir] := List.mem_iff_getElem?.mpr ⟨i, proc⟩
    rw [List.mem_singleton.mp member]
    exact .inl ((accessible n small).2.2 rfl)

theorem start_copy :
    CopyShown b sz (entry m pgdir) κ { mem := m, dirs := [pgdir] } [byteAt m pgdir] where
  toShown := start_shown owned dir below accessible
  plain := by
    intro i d proc n small
    have member : d ∈ [pgdir] := List.mem_iff_getElem?.mpr ⟨i, proc⟩
    rw [List.mem_singleton.mp member]
    exact (accessible n small).2.2 rfl
  apart := by
    intro i j d d' n k proc proc' _ _ _
    have zero {l e : Nat} (which : [pgdir][l]? = some e) : l = 0 := by
      simpa using (List.getElem?_eq_some_iff.mp which).1
    exact ⟨(zero proc).trans (zero proc').symm, .inr (zero proc)⟩

theorem first_cow_fork (counting : b.original = false) (strict : b.kallocNull = false)
    (many : 65 + pagesUp sz ≤ m.freelist.length) :
    ∃ child m', access cowuvm b sz { mem := m, dirs := [pgdir] } (.fork 0) =
        .ok ({ mem := m', dirs := [pgdir, child] }, none) ∧ child ≠ pgdir ∧
      (∀ k, k < pagesUp sz → entry m' child k = cowPte (entry m pgdir k)) := by
  rcases (cowuvm_spec counting strict owned dir below).returns (by
    rintro stop (⟨-, short⟩ | ⟨-, k, small, absent⟩)
    · omega
    · rw [(accessible k small).1] at absent
      contradiction) with ⟨⟨made, m'⟩, returned, child, κ', rfl, forked, entries, -⟩
  simp only at forked entries
  refine ⟨child, m', ?_, ?_, entries⟩
  · rw [access]
    simp only [Access.proc, List.getElem?_cons_zero, forkSpace, returned, ok_bind]
    rfl
  · rintro rfl
    exact absurd forked.fresh (by simp [dir])

theorem first_copy_fork (counting : b.original = false) (strict : b.kallocNull = false)
    (many : 65 + 2 * pagesUp sz ≤ m.freelist.length) :
    ∃ child m', access copyuvm b sz { mem := m, dirs := [pgdir] } (.fork 0) =
        .ok ({ mem := m', dirs := [pgdir, child] }, none) := by
  rcases (copyuvm_spec counting strict owned dir below).returns (by
    rintro stop (⟨-, short⟩ | ⟨-, k, small, absent⟩)
    · omega
    · rw [(accessible k small).1] at absent
      contradiction) with ⟨⟨made, m'⟩, returned, child, κ', rfl, -⟩
  refine ⟨child, m', ?_⟩
  rw [access]
  simp only [Access.proc, List.getElem?_cons_zero, forkSpace, returned, ok_bind]
  rfl

/-- A run under `cowuvm` whose stores through writable entries all go to unshared pages
reads what private memories have, as the run under `copyuvm` does. Either stops only when
`kalloc` finds no page. -/
theorem cow_reads_as_copied (counting : b.original = false) (strict : b.kallocNull = false)
    (accesses : List Access)
    (guarded : AllPrivate b sz { mem := m, dirs := [pgdir] } accesses) :
    Yields (reads cowuvm b sz { mem := m, dirs := [pgdir] } accesses)
      (fun bytes => bytes = privateReads sz [byteAt m pgdir] accesses ∧
        Yields (reads copyuvm b sz { mem := m, dirs := [pgdir] } accesses)
          (fun copied => copied = bytes) (fun stop => stop = .nullRun))
      (fun stop => stop = .nullRun) := by
  refine (cow_reads_spec counting strict accesses (start_cow owned dir below accessible)
    guarded).mono ?_ fun _ stopped => stopped
  rintro bytes ⟨rfl, alone⟩
  exact ⟨rfl, copy_reads_spec counting strict accesses
    (start_copy owned dir below accessible) alone⟩

end Start

theorem zero_page_process : ∃ κ m pgdir, Owned sampleBuild κ none m ∧ κ pgdir = .pgdir ∧
    (∀ n, n < pagesUp pgsize → Accessible m pgdir n true) ∧ byteAt m pgdir 0 = 0 ∧
    1000 < m.freelist.length := by
  rcases first_process (b := sampleBuild) rfl rfl (by decide : ([] : List Byte).length < pgsize)
    with ⟨κ, m, -, pgdir, frame, owned, -, dir, -, -, -, user, first, content, many⟩
  refine ⟨κ, m, pgdir, owned, dir, ?_, ?_, many⟩
  · intro n small
    have one : pagesUp pgsize = 1 := by decide
    have zero : n = 0 := by omega
    rw [zero, Accessible, first, has_user, has_write, make_pte_bit 2 (by decide),
      make_pte_bit 1 (by decide)]
    exact ⟨make_pte_present, by decide, fun _ => by decide⟩
  · have inside := frame_in_space (owned.bound (show κ frame ≠ .outside by rw [user]; simp))
    rw [byteAt, show 0 / pgsize = 0 by decide, first, make_pte_frame inside (by decide), content]
    rfl

/-- The child writes, and parent and child read. -/
theorem child_store_private :
    ∃ κ m pgdir, Owned sampleBuild κ none m ∧ κ pgdir = .pgdir ∧ byteAt m pgdir 0 = 0 ∧
      Yields (reads cowuvm sampleBuild pgsize { mem := m, dirs := [pgdir] }
          [.fork 0, .write 1 0 7, .read 0 0, .read 1 0])
        (fun bytes => bytes = privateReads pgsize [byteAt m pgdir]
            [.fork 0, .write 1 0 7, .read 0 0, .read 1 0] ∧
          Yields (reads copyuvm sampleBuild pgsize { mem := m, dirs := [pgdir] }
              [.fork 0, .write 1 0 7, .read 0 0, .read 1 0])
            (fun copied => copied = bytes) (fun stop => stop = .nullRun))
        (fun stop => stop = .nullRun) := by
  obtain ⟨κ, m, pgdir, owned, dir, accessible, zero, many⟩ := zero_page_process
  have one : pagesUp pgsize = 1 := by decide
  obtain ⟨child, m', forked, -, entries⟩ :=
    first_cow_fork owned dir (by decide) accessible rfl rfl (by omega)
  refine ⟨κ, m, pgdir, owned, dir, zero, cow_reads_as_copied owned dir (by decide) accessible
    rfl rfl _ ⟨trivial, ?_⟩⟩
  intro s' value returned
  rw [forked] at returned
  cases returned
  refine ⟨?_, fun _ _ _ => ⟨trivial, fun _ _ _ => ⟨trivial, fun _ _ _ => trivial⟩⟩⟩
  intro d proc _ writable
  cases proc
  rw [show 0 / pgsize = 0 by decide, entries 0 (by omega), cow_pte_read_only] at writable
  cases writable

theorem fork_store_load {copier : Copier} {m m' : Mem} {pgdir child : Nat} {value byte : Byte}
    (forked : access copier b pgsize { mem := m, dirs := [pgdir] } (.fork 0) =
      .ok ({ mem := m', dirs := [pgdir, child] }, none))
    (written : store b { mem := m', dirs := [pgdir, child] } pgdir 0 value =
      .ok (hit { mem := m', dirs := [pgdir, child] } m' pgdir 0 value, none))
    (seen : load (hit { mem := m', dirs := [pgdir, child] } m' pgdir 0 value) child 0 =
      .ok (hit { mem := m', dirs := [pgdir, child] } m' pgdir 0 value, some byte)) :
    reads copier b pgsize { mem := m, dirs := [pgdir] } [.fork 0, .write 0 0 value, .read 1 0] =
      .ok [byte] := by
  have inside : 0 < pgsize := by decide
  have second : (hit { mem := m', dirs := [pgdir, child] } m' pgdir 0 value).dirs[1]? =
      some child := rfl
  rw [reads, forked]
  simp only [ok_bind, reads, access, Access.proc, List.getElem?_cons_zero, written, inside,
    ↓reduceIte]
  rw [second]
  simp only [seen, ok_bind]
  rfl

/-- The parent writes after the fork, and the child reads the new byte. -/
theorem parent_store_visible : ∃ κ m pgdir, Owned sampleBuild κ none m ∧ κ pgdir = .pgdir ∧
      (∀ n, n < pagesUp pgsize → Accessible m pgdir n true) ∧
      reads cowuvm sampleBuild pgsize { mem := m, dirs := [pgdir] }
        [.fork 0, .write 0 0 7, .read 1 0] = .ok [7] ∧
      reads copyuvm sampleBuild pgsize { mem := m, dirs := [pgdir] }
        [.fork 0, .write 0 0 7, .read 1 0] = .ok [0] := by
  obtain ⟨κ, m, pgdir, owned, dir, accessible, zero, many⟩ := zero_page_process
  have one : pagesUp pgsize = 1 := by decide
  refine ⟨κ, m, pgdir, owned, dir, accessible, ?_, ?_⟩
  · obtain ⟨child, m', forked, -, entries⟩ :=
      first_cow_fork owned dir (by decide) accessible rfl rfl (by omega)
    rcases (cow_access_spec rfl rfl (start_cow owned dir (by decide) accessible)
      (a := .fork 0) trivial).of_ok forked with ⟨-, κ', shown⟩
    have parent : (Spaces.mk m' [pgdir, child]).dirs[0]? = some pgdir := rfl
    have other : (Spaces.mk m' [pgdir, child]).dirs[1]? = some child := rfl
    have small : (0 : Nat) / pgsize < pagesUp pgsize := by decide
    have sameFrame : pteFrame (entry m' child (0 / pgsize)) =
        pteFrame (entry m' pgdir (0 / pgsize)) := by
      rw [entries _ small, cow_pte_frame, ← shown.root parent _ small]
    have hits : storeHits m' pgdir 0 = true := by
      obtain ⟨present, user, -⟩ := shown.accessible parent _ small
      have writable := shown.writable _ small
      rw [← shown.root parent _ small] at writable
      simp only [storeHits, present, user, writable, Bool.and_self]
    have written : store sampleBuild { mem := m', dirs := [pgdir, child] } pgdir 0 7 =
        .ok (hit { mem := m', dirs := [pgdir, child] } m' pgdir 0 7, none) := by
      rw [store, if_pos hits]
    have entry' := shown.hit_entries parent (show 0 < pgsize by decide) 7 other (0 / pgsize)
    have seen : load (hit { mem := m', dirs := [pgdir, child] } m' pgdir 0 7) child 0 =
        .ok (hit { mem := m', dirs := [pgdir, child] } m' pgdir 0 7, some 7) := by
      obtain ⟨present, user, -⟩ := shown.accessible other _ small
      rw [load, byteAt, entry', sameFrame, if_pos (by simp only [present, user, Bool.and_self]),
        hit, putByte, set_page_same, update_self]
    exact fork_store_load forked written seen
  · obtain ⟨child, m', forked⟩ :=
      first_copy_fork owned dir (by decide) accessible rfl rfl (by omega)
    rcases (copy_access_spec rfl rfl (start_copy owned dir (by decide) accessible)
      (a := .fork 0) trivial).of_ok forked with ⟨-, κ', shown⟩
    have views : (privateAccess pgsize [byteAt m pgdir] (.fork 0)).1 =
        [byteAt m pgdir, byteAt m pgdir] := rfl
    rw [views] at shown
    rcases copy_store_spec (i := 0) shown rfl rfl (show 0 < pgsize by decide) 7 (by
      intro _ _ k small _
      rw [one] at small
      rw [show (0 : Nat) / pgsize = 0 by decide]
      omega) with ⟨written, shown'⟩
    have seen := shown'.load_spec (i := 1) rfl rfl (show 0 < pgsize by decide)
    rw [zero] at seen
    exact fork_store_load forked written seen

end Xv6Hacks.CowRefinement
