import Xv6Hacks.BlockFrames
import Xv6Hacks.GroupStatistics

/-!
# Which inode `ialloc` takes

A file or device goes to the first free inode from the group of the current directory on.
The scan makes `ninodes` steps and does not wrap, so with no free inode there it reads a
block beyond the end of the disk before it would start again. A directory goes to the group
with the lowest percentage, and only that group is scanned.
-/

namespace Xv6Hacks.InodeAllocation

open Function
open BlockAccounting BlockAllocation BlockGroupLayout ByteBuffers DiskFormat GroupStatistics
open KernelCalls KernelFs
open BlockFrames (blankDisk emptyCache)

def FreeInode (fs : Fs) (inum : Nat) : Prop := (loadDinode fs.disk fs.sb inum).type = 0

instance (fs : Fs) (inum : Nat) : Decidable (FreeInode fs inum) :=
  inferInstanceAs (Decidable (_ = _))

structure FirstFreeInode (fs : Fs) (first inum : Nat) : Prop where
  lower : first ≤ inum
  inside : inum < fs.sb.ninodes
  free : FreeInode fs inum
  before : ∀ earlier, first ≤ earlier → earlier < inum → ¬ FreeInode fs earlier

variable {fs : Fs}

theorem exists_first_free_inode {first inum : Nat} (lower : first ≤ inum)
    (inside : inum < fs.sb.ninodes) (free : FreeInode fs inum) :
    ∃ found, FirstFreeInode fs first found ∧ found ≤ inum := by
  have some : ∃ found, first ≤ found ∧ FreeInode fs found := ⟨inum, lower, free⟩
  have least : Nat.find some ≤ inum := Nat.find_min' some ⟨lower, free⟩
  obtain ⟨atLeast, isFree⟩ := Nat.find_spec some
  refine ⟨Nat.find some, ⟨atLeast, by omega, isFree, ?_⟩, least⟩
  intro earlier above below isFree
  exact Nat.find_min some below ⟨above, isFree⟩

theorem first_free_inode_unique {first left right : Nat} (one : FirstFreeInode fs first left)
    (other : FirstFreeInode fs first right) : left = right := by
  by_contra different
  rcases Nat.lt_or_gt_of_ne different with below | above
  · exact other.before left one.lower below one.free
  · exact one.before right other.lower above other.free

section Scan
variable (layout : fs.sb = layoutSb)
include layout

theorem scan_inodes_step {first : Nat} (inside : first < fs.sb.ninodes) (count : Nat) :
    scanInodes fs (count + 1) first =
      if FreeInode fs first then .ok (some first) else scanInodes fs count (first + 1) := by
  have onDisk : iblock first fs.sb < fssize blockgroups := by
    rw [layout] at inside ⊢
    exact (iblock_on_disk_iff first).mpr inside
  rw [scanInodes, bread_none onDisk]
  rfl

theorem scan_inodes_beyond {first : Nat} (outside : fs.sb.ninodes ≤ first) (count : Nat) :
    scanInodes fs (count + 1) first = .error .incorrectBlockno := by
  have offDisk : ¬ iblock first fs.sb < fssize blockgroups := by
    rw [layout] at outside ⊢
    rw [iblock_on_disk_iff first]
    omega
  rw [scanInodes, bread, if_neg (by simp), if_neg offDisk]
  rfl

theorem scan_inodes_first {count first inum : Nat} (found : FirstFreeInode fs first inum)
    (reached : inum < first + count) : scanInodes fs count first = .ok (some inum) := by
  have lower := found.lower
  have inside := found.inside
  induction count generalizing first with
  | zero => omega
  | succ count ih =>
    rw [scan_inodes_step layout (by omega)]
    by_cases here : first = inum
    · rw [here, if_pos found.free]
    · rw [if_neg (found.before first le_rfl (by omega))]
      apply ih _ (by omega) (by omega)
      exact ⟨by omega, inside, found.free, fun earlier above => found.before earlier (by omega)⟩

theorem scan_inodes_none {count first : Nat}
    (used : ∀ inum, first ≤ inum → inum < first + count → ¬ FreeInode fs inum)
    (short : first + count ≤ fs.sb.ninodes) : scanInodes fs count first = .ok none := by
  induction count generalizing first with
  | zero => rfl
  | succ count ih =>
    rw [scan_inodes_step layout (by omega), if_neg (used first le_rfl (by omega))]
    exact ih (fun inum above below => used inum (by omega) (by omega)) (by omega)

theorem scan_inodes_off_disk {count first : Nat} (some : 0 < count)
    (used : ∀ inum, first ≤ inum → inum < fs.sb.ninodes → ¬ FreeInode fs inum)
    (long : fs.sb.ninodes < first + count) :
    scanInodes fs count first = .error .incorrectBlockno := by
  induction count generalizing first with
  | zero => omega
  | succ count ih =>
    by_cases inside : first < fs.sb.ninodes
    · rw [scan_inodes_step layout inside, if_neg (used first le_rfl inside)]
      exact ih (by omega) (fun inum above => used inum (by omega)) (by omega)
    · exact scan_inodes_beyond layout (by omega) count

end Scan

/-- The cache has an entry for the inode, or a free one. -/
def Room (fs : Fs) (inum : Nat) : Prop :=
  ∃ slot, (0 < (fs.icache slot).ref ∧ (fs.icache slot).inum = inum) ∨ (fs.icache slot).ref = 0

theorem iget_entry {inum : Nat} {slot : CacheSlot} {after : Fs}
    (got : iget fs inum = .ok (slot, after)) :
    Room fs inum ∧ after.disk = fs.disk ∧ after.sb = fs.sb ∧ (after.icache slot).inum = inum := by
  rcases iget_ok got with ⟨used, same, rfl⟩ | ⟨-, free, rfl⟩
  · refine ⟨⟨slot, .inl ⟨used, same⟩⟩, rfl, rfl, ?_⟩
    rw [set_inode_same]
    exact same
  · refine ⟨⟨slot, .inr free⟩, rfl, rfl, ?_⟩
    rw [set_inode_same]

theorem iget_returns {inum : Nat} (room : Room fs inum) :
    ∃ slot after, iget fs inum = .ok (slot, after) := by
  rw [iget]
  split
  next => exact ⟨_, _, rfl⟩
  next missing =>
    split
    next => exact ⟨_, _, rfl⟩
    next full =>
      rw [List.find?_eq_none] at missing full
      obtain ⟨slot, cached | empty⟩ := room
      · exact absurd (decide_eq_true cached) (missing slot (List.mem_finRange slot))
      · exact absurd (decide_eq_true empty) (full slot (List.mem_finRange slot))

/-- `ialloc` returned `inum`, which was free, and set its type. -/
structure Allocates (fs : Fs) (type : BitVec 16) (cwd inum : Nat) : Prop where
  returned : ∃ slot after, ialloc fs type cwd = .ok (slot, after) ∧
    (after.icache slot).inum = inum ∧ (loadDinode after.disk after.sb inum).type = type
  positive : 0 < inum
  inside : inum < fs.sb.ninodes
  free : FreeInode fs inum

theorem allocates_of_claim (layout : fs.sb = layoutSb) {type : BitVec 16} {cwd inum : Nat}
    (claims : ialloc fs type cwd = iget (claimInode fs inum type) inum) (positive : 0 < inum)
    (inside : inum < fs.sb.ninodes) (free : FreeInode fs inum) (room : Room fs inum) :
    Allocates fs type cwd inum := by
  obtain ⟨slot, after, got⟩ := @iget_returns (claimInode fs inum type) inum room
  obtain ⟨-, disk, sb, number⟩ := iget_entry got
  refine ⟨⟨slot, after, claims.trans got, number, ?_⟩, positive, inside, free⟩
  rw [disk, sb, show (claimInode fs inum type).sb = layoutSb from layout]
  exact (claim_inode_types layout inum type).1

def fileStart (fs : Fs) (cwd : Nat) : Nat :=
  if inodeHead cwd fs.sb = 0 then 1 else inodeHead cwd fs.sb

theorem file_start_positive (fs : Fs) (cwd : Nat) : 0 < fileStart fs cwd := by
  rw [fileStart]
  split <;> omega

section File
variable (layout : fs.sb = layoutSb) {type : BitVec 16} (notDir : type ≠ tDir) {cwd : Nat}
include layout notDir

theorem ialloc_file_takes {inum : Nat} (found : FirstFreeInode fs (fileStart fs cwd) inum) :
    ialloc fs type cwd = iget (claimInode fs inum type) inum := by
  have inside := found.inside
  have scanned := scan_inodes_first layout found (by omega : inum < fileStart fs cwd + fs.sb.ninodes)
  rw [fileStart] at scanned
  rw [ialloc, if_neg notDir]
  simp only
  rw [scanned]
  rfl

/-- The second pass of the scan is never reached. -/
theorem ialloc_file_panics
    (used : ∀ inum, fileStart fs cwd ≤ inum → inum < fs.sb.ninodes → ¬ FreeInode fs inum) :
    ialloc fs type cwd = .error .incorrectBlockno := by
  have start := file_start_positive fs cwd
  have total : 0 < fs.sb.ninodes := by
    rw [layout]
    decide
  have scanned := scan_inodes_off_disk layout total used (by omega)
  rw [fileStart] at scanned
  rw [ialloc, if_neg notDir]
  simp only
  rw [scanned]
  rfl

theorem file_allocates_iff : (∃ inum, Allocates fs type cwd inum) ↔
    ∃ inum, FirstFreeInode fs (fileStart fs cwd) inum ∧ Room fs inum := by
  constructor
  · rintro ⟨inum, allocates⟩
    obtain ⟨slot, after, allocated, -, -⟩ := allocates.returned
    by_cases some : ∃ later, fileStart fs cwd ≤ later ∧ later < fs.sb.ninodes ∧ FreeInode fs later
    · obtain ⟨later, lower, inside, free⟩ := some
      obtain ⟨found, first, -⟩ := exists_first_free_inode lower inside free
      rw [ialloc_file_takes layout notDir first] at allocated
      exact ⟨found, first, (iget_entry allocated).1⟩
    · push Not at some
      rw [ialloc_file_panics layout notDir some] at allocated
      cases allocated
  · rintro ⟨inum, first, room⟩
    have start := file_start_positive fs cwd
    have lower := first.lower
    exact ⟨inum, allocates_of_claim layout (ialloc_file_takes layout notDir first) (by omega)
      first.inside first.free room⟩

end File

def SomeFree (fs : Fs) : Prop := ∃ inum, 0 < inum ∧ inum < fs.sb.ninodes ∧ FreeInode fs inum

/-- With a free inode somewhere, `ialloc` of a file returns one exactly when there is one
from the group of the current directory on, and a cache entry for it. -/
theorem file_allocation_complete_iff (fs : Fs) (layout : fs.sb = layoutSb) (type : BitVec 16)
    (notDir : type ≠ tDir) (cwd : Nat) : (SomeFree fs → ∃ inum, Allocates fs type cwd inum) ↔
      (SomeFree fs → ∃ inum, FirstFreeInode fs (fileStart fs cwd) inum ∧ Room fs inum) := by
  rw [file_allocates_iff layout notDir]

def firstBlockFree : Fs where
  sb := layoutSb
  disk := update (fun _ _ => 1) 33 blankBlock
  icache := emptyCache

theorem read_ones_type (slot : Nat) : (readDinode (fun _ => 1) slot).type = 257 := by
  simp only [readDinode, readLE]
  decide

theorem first_block_free_iff (inum : Nat) : FreeInode firstBlockFree inum ↔ inum < 8 := by
  unfold FreeInode loadDinode firstBlockFree
  simp only
  by_cases here : iblock inum layoutSb = 33
  · rw [here, update_self, read_dinode_blank]
    rw [iblock_eq] at here
    simp only [Dinode.blank, true_iff]
    omega
  · rw [update_of_ne here, read_ones_type]
    rw [iblock_eq] at here
    constructor
    · intro zero
      exact absurd zero (by decide)
    · intro small
      omega

theorem file_in_root_group : firstBlockFree.sb = layoutSb ∧ tFile ≠ tDir ∧
      ((SomeFree firstBlockFree → ∃ inum, Allocates firstBlockFree tFile rootino inum) ↔
        (SomeFree firstBlockFree → ∃ inum,
          FirstFreeInode firstBlockFree (fileStart firstBlockFree rootino) inum ∧
            Room firstBlockFree inum)) :=
  ⟨rfl, by decide, file_allocation_complete_iff firstBlockFree rfl tFile (by decide) rootino⟩

/-- From a directory in group 1 the scan does not find the free inodes of group 0. -/
theorem ialloc_leaves_the_disk :
    ¬ ∀ fs : Fs, fs.sb = layoutSb → ∀ type, type ≠ tDir → ∀ cwd, SomeFree fs →
      ∃ inum, Allocates fs type cwd inum := by
  intro always
  have some : SomeFree firstBlockFree := ⟨2, by decide, by decide, by decide⟩
  obtain ⟨inum, first, -⟩ := (@file_allocates_iff firstBlockFree rfl tFile (by decide) 29).mp
    (always firstBlockFree rfl tFile (by decide) 29 some)
  have late := first.lower
  have early := (first_block_free_iff inum).mp first.free
  rw [show fileStart firstBlockFree 29 = 29 by decide] at late
  omega

/-- The first inode of a group that can be allocated; there is no inode 0. -/
def groupStart (fs : Fs) (group : Nat) : Nat := if group = 0 then 1 else group * fs.sb.ipbg

def capacity (fs : Fs) (group : Nat) : Nat :=
  group * fs.sb.ipbg + fs.sb.ipbg - groupStart fs group

def allocatedInodes (fs : Fs) (group : Nat) : Nat :=
  (List.range (capacity fs group)).countP fun index =>
    decide (¬ FreeInode fs (groupStart fs group + index))

def HasFree (fs : Fs) (group : Nat) : Prop :=
  ∃ inum, groupStart fs group ≤ inum ∧ inum < group * fs.sb.ipbg + fs.sb.ipbg ∧ FreeInode fs inum

/-- The record of a group says how many of its inodes are allocated. -/
structure Accurate (fs : Fs) (group : Nat) : Prop where
  used : usedBlocks (fs.disk (statblock group fs.sb)) = allocatedInodes fs group
  percent : percentFull (fs.disk (statblock group fs.sb)) =
    statPercentageAbs (usedBlocks (fs.disk (statblock group fs.sb))) fs.sb

theorem allocated_le_capacity (fs : Fs) (group : Nat) :
    allocatedInodes fs group ≤ capacity fs group := by
  rw [allocatedInodes]
  exact List.countP_le_length.trans (by rw [List.length_range])

theorem has_free_iff (fs : Fs) (group : Nat) :
    HasFree fs group ↔ allocatedInodes fs group < capacity fs group := by
  have bound := allocated_le_capacity fs group
  have full : allocatedInodes fs group = capacity fs group ↔ ¬ HasFree fs group := by
    have length : capacity fs group = (List.range (capacity fs group)).length :=
      (List.length_range).symm
    unfold allocatedInodes
    nth_rewrite 2 [length]
    rw [List.countP_eq_length]
    constructor
    · rintro all ⟨inum, lower, upper, free⟩
      have used := all (inum - groupStart fs group) (List.mem_range.mpr (by rw [capacity]; omega))
      rw [decide_eq_true_eq, Nat.add_sub_cancel' lower] at used
      exact used free
    · intro none index member
      rw [List.mem_range, capacity] at member
      rw [decide_eq_true_eq]
      intro free
      exact none ⟨_, by omega, by omega, free⟩
  constructor
  · intro free
    have notFull := mt full.mp (not_not.mpr free)
    omega
  · intro below
    by_contra none
    have isFull := full.mpr none
    omega

/-- The loop over the records, as far as group `n`. -/
def chooseGroup (percent : Nat → Nat) (n : Nat) : Nat × Nat :=
  (List.range n).foldl (fun best group =>
    if 0 < best.2 ∧ percent group < best.2 then (group, percent group) else best) (0, 100)

theorem choose_group_spec (percent : Nat → Nat) (n : Nat) :
    (chooseGroup percent n = (0, 100) ∧ ∀ group, group < n → 100 ≤ percent group) ∨
    ∃ lub, chooseGroup percent n = (lub, percent lub) ∧ lub < n ∧ percent lub < 100 ∧
    (∀ group, group < n → percent lub ≤ percent group) ∧
    ∀ group, group < lub → percent lub < percent group := by
  induction n with
  | zero => exact .inl ⟨rfl, fun group none => absurd none (Nat.not_lt_zero group)⟩
  | succ n ih =>
    have next : chooseGroup percent (n + 1) =
        if 0 < (chooseGroup percent n).2 ∧ percent n < (chooseGroup percent n).2 then
          (n, percent n) else chooseGroup percent n := by
      rw [chooseGroup, List.range_succ, List.foldl_append]
      rfl
    rw [next]
    rcases ih with ⟨nothing, high⟩ | ⟨lub, found, inside, low, least, first⟩
    · rw [nothing]
      by_cases better : percent n < 100
      · right
        refine ⟨n, if_pos ⟨by omega, better⟩, by omega, better, ?_, ?_⟩
        · intro group below
          rcases Nat.lt_succ_iff_lt_or_eq.mp below with earlier | rfl
          · have := high group earlier
            omega
          · exact le_rfl
        · intro group earlier
          have := high group earlier
          omega
      · left
        refine ⟨if_neg fun both => better both.2, ?_⟩
        intro group below
        rcases Nat.lt_succ_iff_lt_or_eq.mp below with earlier | rfl
        · exact high group earlier
        · omega
    · rw [found]
      right
      by_cases better : percent n < percent lub
      · refine ⟨n, if_pos ⟨by omega, better⟩, by omega, by omega, ?_, ?_⟩
        · intro group below
          rcases Nat.lt_succ_iff_lt_or_eq.mp below with earlier | rfl
          · have := least group earlier
            omega
          · exact le_rfl
        · intro group earlier
          have := least group earlier
          omega
      · refine ⟨lub, if_neg fun both => better both.2, by omega, low, ?_, first⟩
        intro group below
        rcases Nat.lt_succ_iff_lt_or_eq.mp below with earlier | rfl
        · exact least group earlier
        · omega

/-- Group 0 is full and no other group has more than one free inode. Group 0 then shows
28 * 100 / 29 = 96 percent, and no group shows less. -/
def Stuck (fs : Fs) : Prop :=
  ¬ HasFree fs 0 ∧
    ∀ group, 0 < group → group < fs.sb.nblockgroups → 28 ≤ allocatedInodes fs group

/-- No group with a free inode has fewer allocated ones. -/
def LeastUsed (fs : Fs) (group : Nat) : Prop :=
  ∀ other, other < fs.sb.nblockgroups → HasFree fs other →
    allocatedInodes fs group ≤ allocatedInodes fs other

section Directory
variable (layout : fs.sb = layoutSb)
include layout

theorem capacity_eq (group : Nat) : capacity fs group = if group = 0 then 28 else 29 := by
  rw [capacity, groupStart, layout, layout_ipbg]
  split <;> omega

theorem ialloc_dir_takes {inum cwd : Nat}
    (found : FirstFreeInode fs (groupStart fs (leastUsedGroup fs)) inum)
    (within : inum < leastUsedGroup fs * fs.sb.ipbg + fs.sb.ipbg) :
    ialloc fs tDir cwd = iget (claimInode fs inum tDir) inum := by
  have scanned := scan_inodes_first layout found
    (by omega : inum < groupStart fs (leastUsedGroup fs) +
      (leastUsedGroup fs * fs.sb.ipbg + fs.sb.ipbg - groupStart fs (leastUsedGroup fs)))
  rw [groupStart] at scanned
  rw [ialloc, if_pos rfl]
  simp only
  rw [scanned]
  rfl

theorem ialloc_dir_panics {cwd : Nat} (inside : leastUsedGroup fs < fs.sb.nblockgroups)
    (full : ¬ HasFree fs (leastUsedGroup fs)) : ialloc fs tDir cwd = .error .noInodes := by
  have start : groupStart fs (leastUsedGroup fs) ≤
      leastUsedGroup fs * fs.sb.ipbg + fs.sb.ipbg := by
    rw [groupStart, layout, layout_ipbg]
    split <;> omega
  have last : leastUsedGroup fs * fs.sb.ipbg + fs.sb.ipbg ≤ fs.sb.ninodes := by
    have total : layoutSb.ninodes = 725 := by decide
    rw [layout, layout_groups] at inside
    rw [layout, layout_ipbg, total]
    omega
  have scanned := @scan_inodes_none fs layout _ (groupStart fs (leastUsedGroup fs))
    (fun inum lower upper free => full ⟨inum, lower, by omega, free⟩)
    (by omega : groupStart fs (leastUsedGroup fs) +
      (leastUsedGroup fs * fs.sb.ipbg + fs.sb.ipbg - groupStart fs (leastUsedGroup fs)) ≤ _)
  rw [groupStart] at scanned
  rw [ialloc, if_pos rfl]
  simp only
  rw [scanned]
  rfl

variable (accurate : ∀ group, group < fs.sb.nblockgroups → Accurate fs group)
include accurate

theorem percent_eq {group : Nat} (inside : group < fs.sb.nblockgroups) :
    percentFull (fs.disk (statblock group fs.sb)) = allocatedInodes fs group * 100 / 29 := by
  have record := accurate group inside
  rw [record.percent, record.used, statPercentageAbs, layout, layout_ipbg]

theorem least_used_group_cases :
    (leastUsedGroup fs < fs.sb.nblockgroups ∧ HasFree fs (leastUsedGroup fs) ∧
    LeastUsed fs (leastUsedGroup fs) ∧ ¬ Stuck fs) ∨
    (leastUsedGroup fs = 0 ∧ ¬ HasFree fs 0 ∧ Stuck fs) := by
  have groups : fs.sb.nblockgroups = 25 := by
    rw [layout]
    decide
  have bound (group : Nat) : allocatedInodes fs group ≤ if group = 0 then 28 else 29 := by
    rw [← capacity_eq layout group]
    exact allocated_le_capacity fs group
  have free (group : Nat) :
      HasFree fs group ↔ allocatedInodes fs group < if group = 0 then 28 else 29 := by
    rw [← capacity_eq layout group]
    exact has_free_iff fs group
  have shown := @percent_eq fs layout accurate
  have zero := bound 0
  rw [if_pos rfl] at zero
  have spec := choose_group_spec (fun group => percentFull (fs.disk (statblock group fs.sb)))
    fs.sb.nblockgroups
  have chosen : leastUsedGroup fs =
      (chooseGroup (fun group => percentFull (fs.disk (statblock group fs.sb)))
        fs.sb.nblockgroups).1 := rfl
  rcases spec with ⟨-, high⟩ | ⟨lub, found, inside, low, least, first⟩
  · -- Group 0 has at most 28 inodes, so its percentage is below 100.
    have here := high 0 (by omega)
    rw [shown (by omega)] at here
    omega
  · rw [found] at chosen
    rw [chosen]
    rw [shown inside] at low
    have fewest (group : Nat) (small : group < fs.sb.nblockgroups) :
        allocatedInodes fs lub ≤ allocatedInodes fs group := by
      have order := least group small
      rw [shown inside, shown small] at order
      omega
    by_cases room : HasFree fs lub
    · left
      refine ⟨inside, room, fun other small _ => fewest other small, ?_⟩
      rintro ⟨fullZero, others⟩
      rw [free 0, if_pos rfl] at fullZero
      rw [free lub] at room
      by_cases isZero : lub = 0
      · rw [isZero, if_pos rfl] at room
        omega
      · have here := others lub (by omega) inside
        have before := first 0 (by omega)
        rw [shown inside, shown (by omega)] at before
        omega
    · right
      have full := room
      rw [free lub] at full
      have isZero : lub = 0 := by
        by_contra other
        rw [if_neg other] at full
        omega
      subst isZero
      refine ⟨rfl, room, room, ?_⟩
      intro group positive small
      rw [if_pos rfl] at full
      have order := fewest group small
      omega

end Directory

theorem group_of_inode (layout : fs.sb = layoutSb) {group inum : Nat}
    (lower : groupStart fs group ≤ inum) (upper : inum < group * fs.sb.ipbg + fs.sb.ipbg) :
    bgroup inum fs.sb = group := by
  have start : group * 29 ≤ groupStart fs group := by
    rw [groupStart, layout, layout_ipbg]
    split <;> omega
  rw [layout, layout_ipbg] at upper
  rw [bgroup, layout, layout_ipbg]
  omega

/-- With accurate records and a free inode somewhere, a new directory gets a free inode of
a least used group, except when every percentage is at least that of the full group 0; and
the inode needs a cache entry. -/
theorem directory_allocation_complete_iff (fs : Fs) (layout : fs.sb = layoutSb)
    (accurate : ∀ group, group < fs.sb.nblockgroups → Accurate fs group) (cwd : Nat) :
    (SomeFree fs → ∃ inum, Allocates fs tDir cwd inum ∧ LeastUsed fs (bgroup inum fs.sb)) ↔
      (SomeFree fs → ¬ Stuck fs ∧
        ∀ inum, FirstFreeInode fs (groupStart fs (leastUsedGroup fs)) inum → Room fs inum) := by
  apply imp_congr_right
  intro _
  rcases least_used_group_cases layout accurate with
    ⟨inside, free, least, notStuck⟩ | ⟨zero, full, stuck⟩
  · obtain ⟨later, lower, upper, isFree⟩ := free
    have last : leastUsedGroup fs * fs.sb.ipbg + fs.sb.ipbg ≤ fs.sb.ninodes := by
      have total : layoutSb.ninodes = 725 := by decide
      rw [layout, layout_groups] at inside
      rw [layout, layout_ipbg, total]
      omega
    obtain ⟨inum, first, early⟩ := exists_first_free_inode lower (by omega) isFree
    have within : inum < leastUsedGroup fs * fs.sb.ipbg + fs.sb.ipbg := by omega
    have takes := @ialloc_dir_takes fs layout inum cwd first within
    constructor
    · rintro ⟨other, allocates, -⟩
      obtain ⟨slot, after, allocated, -, -⟩ := allocates.returned
      rw [takes] at allocated
      refine ⟨notStuck, ?_⟩
      intro found also
      rw [first_free_inode_unique also first]
      exact (iget_entry allocated).1
    · rintro ⟨-, room⟩
      have positive : 0 < inum := by
        have start := first.lower
        rw [groupStart, layout, layout_ipbg] at start
        split at start <;> omega
      refine ⟨inum, allocates_of_claim layout takes positive first.inside first.free
        (room inum first), ?_⟩
      rw [group_of_inode layout first.lower within]
      exact least
  · constructor
    · rintro ⟨inum, allocates, -⟩
      obtain ⟨slot, after, allocated, -, -⟩ := allocates.returned
      have groups : 0 < fs.sb.nblockgroups := by
        rw [layout]
        decide
      rw [ialloc_dir_panics layout (by omega) (by rw [zero]; exact full)] at allocated
      cases allocated
    · rintro ⟨notStuck, -⟩
      exact absurd stuck notStuck

theorem blank_disk_free (inum : Nat) : FreeInode blankDisk inum := by
  unfold FreeInode loadDinode blankDisk
  rw [read_dinode_blank]
  rfl

theorem blank_disk_accurate (group : Nat) : Accurate blankDisk group := by
  have none : allocatedInodes blankDisk group = 0 := by
    rw [allocatedInodes, List.countP_eq_zero]
    intro index _
    rw [decide_eq_true_eq, not_not]
    exact blank_disk_free _
  refine ⟨?_, ?_⟩
  · rw [none]
    exact read_blank_block _ _
  · have zero : usedBlocks (blankDisk.disk (statblock group blankDisk.sb)) = 0 :=
      read_blank_block _ _
    rw [zero]
    exact read_blank_block _ _

theorem directory_on_blank_disk : blankDisk.sb = layoutSb ∧
      (∀ group, group < blankDisk.sb.nblockgroups → Accurate blankDisk group) ∧
      ((SomeFree blankDisk → ∃ inum, Allocates blankDisk tDir rootino inum ∧
          LeastUsed blankDisk (bgroup inum blankDisk.sb)) ↔
        (SomeFree blankDisk → ¬ Stuck blankDisk ∧
          ∀ inum, FirstFreeInode blankDisk (groupStart blankDisk (leastUsedGroup blankDisk)) inum →
            Room blankDisk inum)) :=
  ⟨rfl, fun group _ => blank_disk_accurate group,
    directory_allocation_complete_iff blankDisk rfl (fun group _ => blank_disk_accurate group)
      rootino⟩

/-- The last inode block of a group, with the record 28 and 96 at its end; the fifth inode
in it is free or not. -/
def lastBlock (free : Bool) : Buffer := fun index =>
  if free ∧ (index = 256 ∨ index = 257) then 0
  else if index = 504 then 28
  else if index = 508 then 96
  else if index < 504 then 1
  else 0

/-- Group 0 is full, and every other group has one free inode, its last. -/
def nearlyFull : Fs where
  sb := layoutSb
  disk := fun blockno =>
    if blockno % 4065 = 36 then lastBlock (blockno ≠ 36) else fun _ => 1
  icache := emptyCache

theorem last_block_type (free : Bool) (slot : Nat) (small : slot < 5) :
    (readDinode (lastBlock free) slot).type = 0 ↔ free = true ∧ slot = 4 := by
  interval_cases slot <;> cases free <;> decide

theorem nearly_full_free_iff (inum : Nat) :
    FreeInode nearlyFull inum ↔ 29 ≤ inum ∧ inum % 29 = 28 := by
  unfold FreeInode loadDinode nearlyFull
  simp only
  rw [iblock_eq, dinodeoffset_eq]
  by_cases last : 24 ≤ inum % 29
  · rw [if_pos (by omega), show inum % 29 % 8 = inum % 29 - 24 by omega,
      last_block_type _ _ (by omega), decide_eq_true_eq]
    omega
  · rw [if_neg (by omega), read_ones_type]
    constructor
    · intro zero
      exact absurd zero (by decide)
    · intro both
      omega

theorem nearly_full_allocated (group : Nat) : allocatedInodes nearlyFull group = 28 := by
  have layout : nearlyFull.sb = layoutSb := rfl
  have free := nearly_full_free_iff
  rw [allocatedInodes, capacity_eq layout, groupStart, layout, layout_ipbg]
  by_cases zero : group = 0
  · simp only [zero, ↓reduceIte, free]
    decide
  · simp only [zero, ↓reduceIte, free]
    have same : (List.range 29).countP
        (fun index => decide (¬ (29 ≤ group * 29 + index ∧ (group * 29 + index) % 29 = 28))) =
          (List.range 29).countP (fun index => decide (index ≠ 28)) := by
      apply List.countP_congr
      intro index member
      rw [List.mem_range] at member
      simp only [decide_eq_true_eq]
      omega
    rw [same]
    decide

theorem nearly_full_accurate (group : Nat) : Accurate nearlyFull group := by
  have record (free : Bool) :
      usedBlocks (lastBlock free) = 28 ∧ percentFull (lastBlock free) = 96 := by
    cases free <;> decide
  have block : nearlyFull.disk (statblock group nearlyFull.sb) =
      lastBlock (statblock group layoutSb ≠ 36) := by
    simp only [nearlyFull]
    rw [if_pos (by rw [statblock_eq]; omega)]
  refine ⟨?_, ?_⟩
  · rw [block, (record _).1, nearly_full_allocated]
  · rw [block, (record _).1, (record _).2]
    rfl

theorem nearly_full_stuck : Stuck nearlyFull := by
  constructor
  · rintro ⟨inum, -, upper, free⟩
    rw [nearly_full_free_iff] at free
    rw [show nearlyFull.sb.ipbg = 29 from layout_ipbg] at upper
    omega
  · intro group _ _
    rw [nearly_full_allocated]

/-- Group 0 comes first among equal percentages although it is full. -/
theorem full_group_chosen : ¬ ∀ fs : Fs, fs.sb = layoutSb →
      (∀ group, group < fs.sb.nblockgroups → Accurate fs group) → ∀ cwd, SomeFree fs →
        ∃ inum, Allocates fs tDir cwd inum ∧ LeastUsed fs (bgroup inum fs.sb) := by
  intro always
  have some : SomeFree nearlyFull :=
    ⟨57, by decide, by decide, (nearly_full_free_iff 57).mpr (by decide)⟩
  obtain ⟨inum, allocates, -⟩ := always nearlyFull rfl (fun group _ => nearly_full_accurate group)
    rootino some
  obtain ⟨slot, after, allocated, -, -⟩ := allocates.returned
  rcases @least_used_group_cases nearlyFull rfl (fun group _ => nearly_full_accurate group) with
    ⟨-, -, -, notStuck⟩ | ⟨zero, full, -⟩
  · exact notStuck nearly_full_stuck
  · rw [@ialloc_dir_panics nearlyFull rfl rootino (by rw [zero]; decide)
      (by rw [zero]; exact full)] at allocated
    cases allocated

end Xv6Hacks.InodeAllocation
