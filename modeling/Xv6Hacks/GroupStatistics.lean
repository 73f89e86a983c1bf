import Xv6Hacks.FileSystemRuns
import Xv6Hacks.ReferenceCounts

/-!
# Statistics of the block groups

Each group keeps a count of its inodes in use at the end of its last inode block.
`iinit` computes the counts, `ialloc` adds one, and nothing subtracts: `iput` frees an
inode without touching the record. Along runs of the inode calls the counts are exact
as long as no `iput` frees an inode.
-/

namespace Xv6Hacks.GroupStatistics

open BlockAccounting BlockGroupLayout ByteBuffers DiskFormat Function
open FileSystemRuns GuardedRuns KernelCalls KernelFs ReferenceCounts WriteSequences

variable {after fs : Fs} {inum : Nat} {disk : Store Buffer} {slot : CacheSlot}

def typedInodes (sb : Superblock) (disk : Store Buffer) (group : Nat) : Nat :=
  (List.range sb.ipbg).countP fun index =>
    decide ((loadDinode disk sb (group * sb.ipbg + index)).type ≠ 0)

structure StatsExact (fs : Fs) (group : Nat) : Prop where
  used : usedBlocks (fs.disk (statblock group fs.sb)) = typedInodes fs.sb fs.disk group
  percent : percentFull (fs.disk (statblock group fs.sb)) =
    usedBlocks (fs.disk (statblock group fs.sb)) * 100 / fs.sb.ipbg

section Records
variable (disk : Store Buffer)

theorem layout_ipbg : layoutSb.ipbg = 29 := by decide

theorem layout_groups : layoutSb.nblockgroups = 25 := by decide

theorem typed_inodes_le (group : Nat) : typedInodes layoutSb disk group ≤ 29 := by
  have bound := List.countP_le_length
    (p := fun index => decide ((loadDinode disk layoutSb (group * layoutSb.ipbg + index)).type ≠ 0))
    (l := List.range layoutSb.ipbg)
  rw [List.length_range, layout_ipbg] at bound
  exact bound

theorem typed_inodes_congr {after : Store Buffer} (group : Nat)
    (same : ∀ inum, (loadDinode after layoutSb inum).type = (loadDinode disk layoutSb inum).type) :
    typedInodes layoutSb after group = typedInodes layoutSb disk group := by
  simp only [typedInodes, same]

theorem typed_inodes_claim {after : Store Buffer} (free : (loadDinode disk layoutSb inum).type = 0)
    (typed : (loadDinode after layoutSb inum).type ≠ 0) (same : ∀ other, other ≠ inum →
      (loadDinode after layoutSb other).type = (loadDinode disk layoutSb other).type)
    (group : Nat) : typedInodes layoutSb after group =
      typedInodes layoutSb disk group + if group = inum / 29 then 1 else 0 := by
  rw [typedInodes, typedInodes, layout_ipbg]
  split
  · rename_i own
    have place : group * 29 + inum % 29 = inum := by
      rw [own]
      omega
    apply count_range_add (Nat.mod_lt inum (by omega : 0 < 29))
    · simp only [place, free]
      decide
    · simp only [place]
      exact decide_eq_true typed
    · intro other _ different
      rw [same _ (by omega)]
  · rename_i foreign
    rw [Nat.add_zero]
    apply List.countP_congr
    intro index member
    rw [List.mem_range] at member
    rw [same _ (by omega)]

theorem used_write_stats (buf : Buffer) (used percent : Nat) (small : used < 2 ^ 32) :
    usedBlocks (writeStats buf used percent) = used := by
  rw [usedBlocks, writeStats, read_le_write_apart _ _ _ _ _ _ (.inl le_rfl), read_le_write_same]
  exact Nat.mod_eq_of_lt (by simpa [sizeofUint] using small)

theorem percent_write_stats (buf : Buffer) (used percent : Nat) (small : percent < 2 ^ 32) :
    percentFull (writeStats buf used percent) = percent := by
  rw [percentFull, writeStats, read_le_write_same]
  exact Nat.mod_eq_of_lt (by simpa [sizeofUint] using small)

theorem stat_percentage_lt (used : Nat) (small : used ≤ 30) :
    statPercentageAbs used layoutSb < 2 ^ 32 := by
  rw [statPercentageAbs, layout_ipbg]
  omega

theorem write_dinode_stats (inum group : Nat) (d : Dinode)
    (same : iblock inum layoutSb = statblock group layoutSb) (buf : Buffer) (index : Nat)
    (beyond : statoff ≤ index) :
    writeDinode buf (dinodeoffset inum layoutSb) d index = buf index := by
  have place : statoff = 504 := by decide
  rw [iblock_eq, statblock_eq] at same
  apply write_dinode_outside
  rw [dinodeoffset_eq]
  omega

theorem store_dinode_stats (inum group : Nat) (d : Dinode) :
    usedBlocks (update disk (iblock inum layoutSb)
    (writeDinode (disk (iblock inum layoutSb)) (dinodeoffset inum layoutSb) d)
    (statblock group layoutSb)) = usedBlocks (disk (statblock group layoutSb)) ∧
    percentFull (update disk (iblock inum layoutSb)
    (writeDinode (disk (iblock inum layoutSb)) (dinodeoffset inum layoutSb) d)
    (statblock group layoutSb)) = percentFull (disk (statblock group layoutSb)) := by
  by_cases same : iblock inum layoutSb = statblock group layoutSb
  · have kept (index : Nat) (beyond : statoff ≤ index) :=
      write_dinode_stats inum group d same (disk (iblock inum layoutSb)) index beyond
    rw [← same, update_self]
    constructor
    · apply read_le_congr
      intro index lower _
      exact kept index lower
    · apply read_le_congr
      intro index lower _
      exact kept index (by omega)
  · rw [update_of_ne (Ne.symm same)]
    exact ⟨rfl, rfl⟩

theorem store_stats_same (group used : Nat) (small : used ≤ 30) :
    usedBlocks (storeStats layoutSb disk group used (statblock group layoutSb)) = used ∧
    percentFull (storeStats layoutSb disk group used (statblock group layoutSb)) =
    used * 100 / layoutSb.ipbg := by
  rw [storeStats, update_self, used_write_stats _ _ _ (by omega),
    percent_write_stats _ _ _ (stat_percentage_lt used small)]
  exact ⟨rfl, rfl⟩

theorem statblock_injective (left right : Nat)
    (same : statblock left layoutSb = statblock right layoutSb) : left = right := by
  rw [statblock_eq, statblock_eq] at same
  omega

end Records

theorem inodes_in_use_congr {after : Store Buffer} (group : Nat)
    (same : ∀ inum, loadDinode after layoutSb inum = loadDinode disk layoutSb inum) :
    inodesInUse layoutSb after group = inodesInUse layoutSb disk group := by
  simp only [inodesInUse, same]

theorem inodes_in_use_le (disk : Store Buffer) (group : Nat) :
    inodesInUse layoutSb disk group ≤ 29 := by
  rw [inodesInUse, layout_ipbg]
  exact List.countP_le_length.trans (by rw [List.length_range])

/-- The loop of `fillFSStats`: no group it has done is spoilt by a later one. -/
theorem fill_stats_fold (groups : List Nat) (disk : Store Buffer) (group : Nat)
    (done : group ∈ groups ∨
      (usedBlocks (disk (statblock group layoutSb)) = inodesInUse layoutSb disk group ∧
        percentFull (disk (statblock group layoutSb)) =
          inodesInUse layoutSb disk group * 100 / layoutSb.ipbg)) :
    let after := groups.foldl (fun disk group =>
      storeStats layoutSb disk group (inodesInUse layoutSb disk group)) disk
    usedBlocks (after (statblock group layoutSb)) = inodesInUse layoutSb disk group ∧
      percentFull (after (statblock group layoutSb)) =
        inodesInUse layoutSb disk group * 100 / layoutSb.ipbg := by
  induction groups generalizing disk with
  | nil =>
    rcases done with member | done
    · exact absurd member (List.not_mem_nil)
    · exact done
  | cons first rest ih =>
    have count : inodesInUse layoutSb
        (storeStats layoutSb disk first (inodesInUse layoutSb disk first)) group =
          inodesInUse layoutSb disk group :=
      inodes_in_use_congr group fun inum => load_store_stats disk first _ inum
    simp only [List.foldl_cons]
    rw [← count]
    apply ih
    rw [count]
    by_cases here : group = first
    · right
      subst here
      exact store_stats_same disk group _ (by have := inodes_in_use_le disk group; omega)
    · rcases done with member | done
      · left
        exact (List.mem_cons.mp member).resolve_left here
      · right
        rw [stats_block_other _ _ _ _ fun same => here (statblock_injective _ _ same)]
        exact done

theorem boot_stats (layout : readsb disk = layoutSb) {group : Nat}
    (inside : group < layoutSb.nblockgroups) :
    usedBlocks ((boot disk).disk (statblock group layoutSb)) = inodesInUse layoutSb disk group ∧
    percentFull ((boot disk).disk (statblock group layoutSb)) =
    inodesInUse layoutSb disk group * 100 / layoutSb.ipbg := by
  have cleared := store_stats_fold (fun _ _ => 0) (List.range layoutSb.nblockgroups) disk
  have filled := fill_stats_fold (List.range layoutSb.nblockgroups) (clearFSStats layoutSb disk)
    group (.inl (List.mem_range.mpr inside))
  have count : inodesInUse layoutSb (clearFSStats layoutSb disk) group =
      inodesInUse layoutSb disk group := inodes_in_use_congr group cleared.load
  rw [count] at filled
  simp only [boot, layout]
  exact filled

/-- What `iinit` relies on: the layout of `mkfs`, no negative type, and inode 0
unused. -/
structure PlainImage (disk : Store Buffer) : Prop where
  layout : readsb disk = layoutSb
  types : ∀ inum, inum < layoutSb.ninodes → (0#16).sle (loadDinode disk layoutSb inum).type = true
  zero : (loadDinode disk layoutSb 0).type = 0

theorem positive_iff_nonzero (type : BitVec 16) (nonneg : (0#16).sle type = true) :
    (0#16).slt type = decide (type ≠ 0) := by
  rw [BitVec.sle_eq_decide, decide_eq_true_eq] at nonneg
  rw [BitVec.slt_eq_decide]
  apply decide_eq_decide.mpr
  rw [Ne, ← BitVec.toInt_inj]
  have zero : (0 : BitVec 16).toInt = 0 := by decide
  change (0 : BitVec 16).toInt ≤ type.toInt at nonneg
  change (0 : BitVec 16).toInt < type.toInt ↔ _
  rw [zero] at nonneg ⊢
  omega

theorem PlainImage.counted (plain : PlainImage disk) {group : Nat}
    (inside : group < layoutSb.nblockgroups) :
    inodesInUse layoutSb disk group = typedInodes layoutSb disk group := by
  have total : layoutSb.ninodes = 725 := by decide
  rw [layout_groups] at inside
  rw [inodesInUse, typedInodes, layout_ipbg]
  apply List.countP_congr
  intro index member
  rw [List.mem_range] at member
  rw [positive_iff_nonzero _ (plain.types _ (by omega))]
  by_cases first : group * 29 + index = 0
  · rw [first, plain.zero]
    simp
  · have positive : 0 < group * 29 + index := Nat.pos_of_ne_zero first
    simp [positive]

open Xv6Hacks.MkfsInodes in
theorem mkfs_plain {files : List Mkfs.InputFile} {image : Mkfs.Image}
    (accepted : Mkfs.mkfs files = some image) : PlainImage image.sector := by
  have built := mkfs_built accepted
  have layout : readsb image.sector = layoutSb := image_superblock built
  have viewed (inum : Nat) : (ImageConsistency.view image inum).type = 0 ∨
      (ImageConsistency.view image inum).type = tDir ∨
        (ImageConsistency.view image inum).type = tFile := by
    rw [ImageConsistency.view]
    by_cases written : inum < image.freeinode
    · by_cases zero : inum = 0
      · rw [zero, built.zero]
        exact .inl rfl
      · by_cases root : inum = rootino
        · obtain ⟨d, found, directory⟩ := built.root
          rw [root, found]
          exact .inr (.inl directory)
        · have notRoot : 2 ≤ inum := by
            rw [rootino] at root
            omega
          obtain ⟨index, bound, -, d, found, inode⟩ := built.file_inode inum notRoot written
          rw [found]
          exact .inr (.inr inode.type)
    · rw [built.unwritten inum (by omega)]
      exact .inl rfl
  refine ⟨layout, ?_, ?_⟩
  · intro inum inside
    have total : layoutSb.ninodes = 725 := by decide
    rw [← layout, kernel_load built inum (by rw [blockgroups]; omega)]
    split
    · rcases viewed (loadedFrom inum) with kind | kind | kind
      all_goals
        rw [kind]
        decide
    · decide
  · rw [← layout, kernel_load built 0 (by decide)]
    rw [show loadedFrom 0 = 0 by decide, if_pos rfl, ImageConsistency.view, built.zero]
    rfl

/-- The calls that allocate, look up, lock, relabel and release inodes. The types of
`stat.h` are not zero. -/
def InodeCall : Action → Prop
  | .ialloc type _ => type ≠ 0
  | .iget _ | .idup _ | .ilock _ | .iunlock _ | .iput _ | .setFields _ _ _ _ => True
  | _ => False

def KeepsInodes (fs : Fs) (action : Action) : Prop :=
  InodeCall action ∧ ∀ slot, action = .iput slot → lastReference (fs.icache slot) = false

/-- The invariant: the records are exact, and a cached inode has the type it has on
disk. -/
structure Counted (fs : Fs) : Prop where
  layout : fs.sb = layoutSb
  typed : ∀ slot inum, Live fs slot inum →
    (fs.icache slot).din.type = (loadDinode fs.disk layoutSb inum).type ∧
      (fs.icache slot).din.type ≠ 0
  exact : ∀ group, group < layoutSb.nblockgroups → StatsExact fs group

section Steps
variable {fs after : Fs}

theorem Counted.recache (counted : Counted fs) (sameSb : after.sb = fs.sb)
    (sameDisk : after.disk = fs.disk) (lives : ∀ slot inum, Live after slot inum →
    (Live fs slot inum ∧ (after.icache slot).din = (fs.icache slot).din) ∨
    (after.icache slot).din = loadDinode fs.disk layoutSb inum ∧
    (after.icache slot).din.type ≠ 0) : Counted after := by
  refine ⟨sameSb.trans counted.layout, ?_, ?_⟩
  · intro slot inum live
    rw [sameDisk]
    rcases lives slot inum live with ⟨before, same⟩ | ⟨loaded, nonzero⟩
    · rw [same]
      exact counted.typed slot inum before
    · exact ⟨congrArg Dinode.type loaded, nonzero⟩
  · intro group inside
    have exact := counted.exact group inside
    constructor
    · rw [sameDisk, sameSb]
      exact exact.used
    · rw [sameDisk, sameSb]
      exact exact.percent

theorem Counted.set_inode (counted : Counted fs) (slot : CacheSlot) (ip : Inode)
    (keeps : 0 < ip.ref → ip.valid = true → Live fs slot ip.inum ∧ ip.din = (fs.icache slot).din) :
    Counted (setInode fs slot ip) := by
  apply counted.recache
  · rfl
  · rfl
  · intro other inum live
    left
    rcases live_set_inode live with ⟨rfl, ref, valid, rfl, entry⟩ | ⟨before, entry⟩
    · rw [entry]
      exact keeps ref valid
    · rw [entry]
      exact ⟨before, rfl⟩

theorem iget_counted (counted : Counted fs) (got : iget fs inum = .ok (slot, after)) :
    Counted after := by
  rcases iget_ok got with ⟨used, -, rfl⟩ | ⟨-, -, rfl⟩
  · exact counted.set_inode slot _ fun _ valid => ⟨⟨used, valid, rfl⟩, rfl⟩
  · exact counted.set_inode slot _ fun _ valid => absurd valid (by simp)

theorem ilock_counted (counted : Counted fs) (locked : ilock fs slot = .ok after) :
    Counted after := by
  obtain ⟨-, ⟨-, rfl⟩ | ⟨-, -, typed, rfl⟩⟩ := ilock_ok locked
  · exact counted.set_inode slot _ fun ref valid => ⟨⟨ref, valid, rfl⟩, rfl⟩
  · apply counted.recache
    · rfl
    · rfl
    · intro other inum live
      rcases live_set_inode live with ⟨rfl, -, -, rfl, entry⟩ | ⟨before, entry⟩
      · right
        rw [entry]
        rw [counted.layout] at typed ⊢
        exact ⟨rfl, typed⟩
      · left
        rw [entry]
        exact ⟨before, rfl⟩

theorem claim_inode_types (layout : fs.sb = layoutSb) (inum : Nat) (type : BitVec 16) :
    (loadDinode (claimInode fs inum type).disk layoutSb inum).type = type ∧
    ∀ other, other ≠ inum → (loadDinode (claimInode fs inum type).disk layoutSb other).type =
    (loadDinode fs.disk layoutSb other).type := by
  simp only [claimInode, logWrite, layout, load_store_stats]
  constructor
  · rw [load_write_same]
  · intro other different
    rw [load_write_other fs.disk inum other _ different]

section
variable (counted : Counted fs)
include counted

theorem claim_inode_counted {type : BitVec 16} (free : (loadDinode fs.disk layoutSb inum).type = 0)
    (typed : type ≠ 0) : Counted (claimInode fs inum type) := by
  have layout := counted.layout
  obtain ⟨own, others⟩ := claim_inode_types layout inum type
  refine ⟨layout, ?_, ?_⟩
  · intro slot other live
    have kept := counted.typed slot other ⟨live.ref, live.valid, live.inum⟩
    have different : other ≠ inum := by
      intro same
      rw [same, free] at kept
      exact kept.2 kept.1
    rw [others other different]
    exact kept
  · intro group inside
    have exact := counted.exact group inside
    have grown := typed_inodes_claim fs.disk free (by rw [own]; exact typed) others group
    have few := typed_inodes_le fs.disk group
    have stored := store_dinode_stats fs.disk inum group { Dinode.blank with type := type }
    obtain ⟨used, percent⟩ := exact
    rw [layout] at used percent
    have ownGroup : bgroup inum layoutSb = inum / 29 := by rw [bgroup, layout_ipbg]
    have sameSb : (claimInode fs inum type).sb = layoutSb := layout
    constructor
    · rw [sameSb, grown]
      simp only [claimInode, logWrite, layout]
      by_cases here : group = inum / 29
      · rw [ownGroup, ← here, stored.1, used, Nat.mod_eq_of_lt (by omega),
          (store_stats_same _ group _ (by omega)).1, if_pos rfl]
      · rw [stats_block_other _ _ _ _ fun same => here (ownGroup ▸ statblock_injective _ _ same),
          stored.1, used, if_neg here]
        rfl
    · rw [sameSb]
      simp only [claimInode, logWrite, layout]
      by_cases here : group = inum / 29
      · rw [ownGroup, ← here, stored.1, used, Nat.mod_eq_of_lt (by omega),
          (store_stats_same _ group _ (by omega)).1, (store_stats_same _ group _ (by omega)).2]
      · rw [stats_block_other _ _ _ _ fun same => here (ownGroup ▸ statblock_injective _ _ same),
          stored.1, stored.2, percent]

theorem iupdate_counted (live : Live fs slot (fs.icache slot).inum)
    (updated : iupdate fs slot = .ok after) : Counted after := by
  have layout := counted.layout
  obtain rfl := iupdate_ok updated
  have own := (counted.typed slot _ live).1
  have types (inum : Nat) : (loadDinode (update fs.disk (iblock (fs.icache slot).inum layoutSb)
      (writeDinode (fs.disk (iblock (fs.icache slot).inum layoutSb))
        (dinodeoffset (fs.icache slot).inum layoutSb) (fs.icache slot).din)) layoutSb inum).type =
        (loadDinode fs.disk layoutSb inum).type := by
    by_cases here : inum = (fs.icache slot).inum
    · rw [here, load_write_same, own]
    · rw [load_write_other fs.disk _ inum _ here]
  refine ⟨layout, ?_, ?_⟩
  · intro other inum cached
    simp only [logWrite, layout, types]
    exact counted.typed other inum ⟨cached.ref, cached.valid, cached.inum⟩
  · intro group inside
    have stored := store_dinode_stats fs.disk (fs.icache slot).inum group (fs.icache slot).din
    obtain ⟨used, percent⟩ := counted.exact group inside
    rw [layout] at used percent
    constructor
    · simp only [logWrite, layout]
      rw [stored.1, used, typed_inodes_congr fs.disk group types]
    · simp only [logWrite, layout]
      rw [stored.1, stored.2, percent]

theorem iput_counted (kept : lastReference (fs.icache slot) = false)
    (put : iput fs slot = .ok after) : Counted after := by
  obtain ⟨middle, ⟨-, rfl⟩ | ⟨last, -⟩, rfl⟩ := iput_ok put
  · apply counted.set_inode
    intro ref valid
    exact ⟨⟨by simp only at ref; omega, valid, rfl⟩, rfl⟩
  · exact absurd last (Bool.eq_false_iff.mp kept)

theorem set_fields_counted (held : locked (fs.icache slot) = true) {major minor nlink : BitVec 16}
    (changed : setFields fs slot major minor nlink = .ok after) : Counted after := by
  have live := locked_live held
  rw [setFields] at changed
  have relabelled : Counted (setDin fs slot
      { (fs.icache slot).din with major := major, minor := minor, nlink := nlink }) := by
    refine ⟨counted.layout, ?_, fun group inside =>
      ⟨(counted.exact group inside).used, (counted.exact group inside).percent⟩⟩
    intro other inum cached
    obtain ⟨ref, valid, number⟩ := cached
    have entry := set_din_entry fs slot other
      { (fs.icache slot).din with major := major, minor := minor, nlink := nlink }
    rw [entry.1] at number
    rw [entry.2.1] at ref
    rw [entry.2.2.1] at valid
    by_cases here : other = slot
    · subst here
      rw [set_din_same]
      exact counted.typed other inum ⟨ref, valid, number⟩
    · rw [set_din_other fs slot other _ here]
      exact counted.typed other inum ⟨ref, valid, number⟩
  apply iupdate_counted relabelled _ changed
  have entry := set_din_entry fs slot slot
    { (fs.icache slot).din with major := major, minor := minor, nlink := nlink }
  exact ⟨entry.2.1 ▸ live.ref, entry.2.2.1 ▸ live.valid, rfl⟩

theorem step_counted {action : Action} (keeps : KeepsInodes fs action)
    (taken : step fs action = .ok after) : Counted after := by
  obtain ⟨call, kept⟩ := keeps
  cases action with
  | ialloc type cwd =>
    simp only [step, bind_ok, Prod.exists] at taken
    obtain ⟨slot, state, allocated, taken⟩ := taken
    cases taken
    obtain ⟨inum, -, free, got⟩ := ialloc_claims allocated
    rw [counted.layout] at free
    exact iget_counted (claim_inode_counted counted free call) got
  | iget inum =>
    simp only [step, bind_ok, Prod.exists] at taken
    obtain ⟨slot, state, got, taken⟩ := taken
    cases taken
    exact iget_counted counted got
  | idup slot =>
    simp only [step] at taken
    split at taken
    · rename_i used
      cases taken
      exact counted.set_inode slot _ fun _ valid => ⟨⟨used, valid, rfl⟩, rfl⟩
    · contradiction
  | ilock slot => exact ilock_counted counted taken
  | iunlock slot =>
    simp only [step, iunlock] at taken
    split at taken
    · contradiction
    · cases taken
      exact counted.set_inode slot _ fun ref valid => ⟨⟨ref, valid, rfl⟩, rfl⟩
  | iput slot =>
    simp only [step] at taken
    split at taken
    · exact iput_counted counted (kept slot rfl) taken
    · contradiction
  | setFields slot major minor nlink =>
    simp only [step] at taken
    split at taken
    · rename_i held
      exact set_fields_counted counted held taken
    · contradiction
  | fillAddr slot index cwd => exact absurd call id
  | fillEntry slot index cwd => exact absurd call id
  | storeBytes slot bn off bytes => exact absurd call id
  | growSize slot off => exact absurd call id

end
end Steps

theorem boot_counted (plain : PlainImage disk) : Counted (boot disk) := by
  have sbSame : (boot disk).sb = layoutSb := plain.layout
  refine ⟨sbSame, ?_, ?_⟩
  · intro slot inum live
    exact absurd live.ref (lt_irrefl 0)
  · intro group inside
    obtain ⟨used, percent⟩ := boot_stats plain.layout inside
    have types := typed_inodes_congr disk group fun inum =>
      congrArg Dinode.type ((boot_disk plain.layout).load inum)
    constructor
    · rw [sbSame, used, types, plain.counted inside]
    · rw [sbSame, used, percent]

theorem reached_counted (plain : PlainImage disk)
    (reached : Reaches next KeepsInodes (boot disk) fs) : Counted fs := by
  apply reaches_invariant Counted (boot_counted plain) _ reached
  intro before action after kept keeps taken
  rw [next] at taken
  cases result : step before action with
  | error stop =>
    rw [result] at taken
    contradiction
  | ok state =>
    rw [result] at taken
    cases taken
    exact step_counted kept keeps result

/-- The records stay exact in every run in which no inode is freed. -/
theorem statistics_exact_over_runs {disk : Store Buffer} (plain : PlainImage disk) {fs : Fs}
    (reached : Reaches next KeepsInodes (boot disk) fs) {group : Nat}
    (inside : group < fs.sb.nblockgroups) : StatsExact fs group := by
  have counted := reached_counted plain reached
  rw [counted.layout] at inside
  exact counted.exact group inside

/-- The inode has another type, and nothing else that the statistics are about has
changed. -/
structure Retyped (disk after : Store Buffer) (inum : Nat) (type : BitVec 16) : Prop where
  own : (loadDinode after layoutSb inum).type = type
  others : ∀ other, other ≠ inum →
    (loadDinode after layoutSb other).type = (loadDinode disk layoutSb other).type
  used : ∀ group, usedBlocks (after (statblock group layoutSb)) =
    usedBlocks (disk (statblock group layoutSb))
  block : ∀ blockno, blockno ≠ iblock inum layoutSb → after blockno = disk blockno

theorem Retyped.trans {middle after : Store Buffer} {first second : BitVec 16}
    (start : Retyped disk middle inum first) (finish : Retyped middle after inum second) :
    Retyped disk after inum second where
  own := finish.own
  others := fun other different =>
    (finish.others other different).trans (start.others other different)
  used := fun group => (finish.used group).trans (start.used group)
  block := fun blockno different =>
    (finish.block blockno different).trans (start.block blockno different)

theorem iupdate_retyped (layout : fs.sb = layoutSb) (updated : iupdate fs slot = .ok after) :
    after.sb = layoutSb ∧ after.icache = fs.icache ∧
    Retyped fs.disk after.disk (fs.icache slot).inum (fs.icache slot).din.type := by
  obtain rfl := iupdate_ok updated
  rw [layout]
  refine ⟨layout, rfl, ?_, ?_, ?_, ?_⟩
  · simp only [logWrite]
    rw [load_write_same]
  · intro other different
    simp only [logWrite]
    rw [load_write_other fs.disk _ other _ different]
  · intro group
    exact (store_dinode_stats fs.disk _ group _).1
  · intro blockno different
    exact log_write_other fs _ _ _ different

theorem iput_retyped (layout : fs.sb = layoutSb) (last : lastReference (fs.icache slot) = true)
    (empty : HoldsNoBlock (fs.icache slot).din) (put : iput fs slot = .ok after) :
    after.sb = layoutSb ∧ Retyped fs.disk after.disk (fs.icache slot).inum 0 := by
  obtain ⟨freed, ⟨kept, -⟩ | ⟨-, dropped⟩, rfl⟩ := iput_ok put
  · exact absurd last (Bool.eq_false_iff.mp kept)
  · simp only [freeInode, bind_ok, itrunc_idle empty] at dropped
    obtain ⟨truncated, grew, updated, wrote, dropped⟩ := dropped
    cases dropped
    rw [growSize] at grew
    have resized (d : Dinode) : (setDin fs slot d).sb = layoutSb := layout
    obtain ⟨sameSb, sameCache, first⟩ := iupdate_retyped (resized _) grew
    have cleared (d : Dinode) : (setDin truncated slot d).sb = layoutSb := sameSb
    obtain ⟨finalSb, -, second⟩ := iupdate_retyped (cleared _) wrote
    have number : (truncated.icache slot).inum = (fs.icache slot).inum := by
      rw [sameCache, (set_din_entry fs slot slot _).1]
    rw [(set_din_entry fs slot slot _).1] at first
    rw [(set_din_entry truncated slot slot _).1, set_din_same, number] at second
    have start : Retyped fs.disk truncated.disk (fs.icache slot).inum _ := first
    have finish : Retyped truncated.disk updated.disk (fs.icache slot).inum 0 := second
    exact ⟨finalSb, start.trans finish⟩

theorem iput_leaves_count (counted : Counted fs) (last : lastReference (fs.icache slot) = true)
    (empty : HoldsNoBlock (fs.icache slot).din) (put : iput fs slot = .ok after)
    (inside : (fs.icache slot).inum / 29 < layoutSb.nblockgroups) :
    ¬ StatsExact after ((fs.icache slot).inum / 29) := by
  intro exact
  obtain ⟨finalSb, freed⟩ := iput_retyped counted.layout last empty put
  have typed := counted.typed slot _ (last_reference_live last)
  have before := (counted.exact _ inside).used
  have grown := typed_inodes_claim after.disk freed.own (typed.1 ▸ typed.2)
    (fun other different => (freed.others other different).symm) ((fs.icache slot).inum / 29)
  have stale := exact.used
  rw [if_pos rfl] at grown
  rw [finalSb, freed.used] at stale
  rw [counted.layout] at before
  omega

theorem release_new_file {n : Nat} {ip : Inode} (file : NewFile fs n ip)
    (last : lastReference ip = true) (free : ip.busy = false) (empty : HoldsNoBlock ip.din) :
    ∃ after, step fs (.iput 0) = .ok after := by
  have used : 0 < ip.ref := by
    simp only [lastReference, Bool.and_eq_true, decide_eq_true_eq] at last
    omega
  have truncating : itrunc fs 0 = growSize fs 0 0 := itrunc_idle (by rw [file.entry]; exact empty)
  obtain ⟨truncated, grew, small⟩ := file.update_din { ip.din with size := BitVec.ofNat 32 0 }
  obtain ⟨freed, wrote, -⟩ := small.update_din { ip.din with size := BitVec.ofNat 32 0, type := 0 }
  have growing : growSize fs 0 0 = .ok truncated := by
    rw [growSize, file.entry]
    exact grew
  have writing : KernelFs.iupdate (setDin truncated 0
      { (truncated.icache 0).din with type := 0 }) 0 = .ok freed := by
    rw [small.entry]
    exact wrote
  simp only [step, file.entry, used, ↓reduceIte, iput, releaseInode, last, free, freeInode,
    Bool.false_eq_true, bind_ok]
  exact ⟨_, _, ⟨truncated, truncating.trans growing, freed, writing, rfl⟩, rfl⟩

theorem ilock_disk (locked : ilock fs slot = .ok after) : after.disk = fs.disk := by
  obtain ⟨-, ⟨-, rfl⟩ | ⟨-, -, -, rfl⟩⟩ := ilock_ok locked
  · rfl
  · rfl

theorem iunlock_disk (unlocked : iunlock fs slot = .ok after) : after.disk = fs.disk := by
  rw [iunlock] at unlocked
  split at unlocked
  · contradiction
  · cases unlocked
    rfl

theorem iget_disk (got : iget fs inum = .ok (slot, after)) : after.disk = fs.disk := by
  rcases iget_ok got with ⟨-, -, rfl⟩ | ⟨-, -, rfl⟩
  · rfl
  · rfl

theorem boot_plain (plain : PlainImage disk) : PlainImage (boot disk).disk := by
  have same := boot_disk plain.layout
  refine ⟨?_, ?_, ?_⟩
  · rw [readsb, same.block 1 fun group => by rw [statblock_eq]; omega]
    exact plain.layout
  · intro inum inside
    rw [same.load]
    exact plain.types inum inside
  · rw [same.load]
    exact plain.zero

theorem ialloc_plain (layout : fs.sb = layoutSb) (plain : PlainImage fs.disk) {type : BitVec 16}
    {cwd : Nat} (nonneg : (0#16).sle type = true)
    (allocated : step fs (.ialloc type cwd) = .ok after) : PlainImage after.disk := by
  simp only [step, bind_ok, Prod.exists] at allocated
  obtain ⟨slot, state, allocated, result⟩ := allocated
  cases result
  obtain ⟨inum, positive, -, got⟩ := ialloc_claims allocated
  have nonzero : 0 < inum := positive (by rw [layout]; decide)
  obtain ⟨own, others⟩ := claim_inode_types layout inum type
  rw [iget_disk got]
  refine ⟨?_, ?_, ?_⟩
  · simp only [readsb, claimInode, logWrite, layout]
    rw [stats_block_other _ _ _ _ (by rw [statblock_eq]; omega),
      update_of_ne (by rw [iblock_eq]; omega)]
    exact plain.layout
  · intro other inside
    by_cases here : other = inum
    · rw [here, own]
      exact nonneg
    · rw [others other here]
      exact plain.types other inside
  · rw [others 0 (by omega)]
    exact plain.zero

/-- A process in the root directory creates a file and gives up on it: it holds the
only reference, and the link count is still zero. -/
def createAndDrop : List Action := [.ialloc tFile 1, .ilock 0, .iunlock 0]

theorem create_and_drop {image : Mkfs.Image} (accepted : Mkfs.mkfs [] = some image) :
    ∃ fs ip, run next (boot image.sector) createAndDrop = some fs ∧
    Reaches next KeepsInodes (boot image.sector) fs ∧ NewFile fs image.freeblock ip ∧
    lastReference ip = true ∧ ip.busy = false ∧ HoldsNoBlock ip.din ∧ ip.inum < 3 ∧
    PlainImage fs.disk := by
  have booted : (boot image.sector).sb = layoutSb := (mkfs_plain accepted).layout
  obtain ⟨created, ip, allocated, file, ref, busy, valid, loaded, -, number⟩ :=
    boot_new_file accepted
  obtain ⟨opened, locking, file⟩ := file.lock ref busy valid (by rw [loaded]; decide)
  rw [loaded] at file
  have held (d : Dinode) : locked { ip with busy := true, valid := true, din := d } = true := by
    simp [locked, ref]
  obtain ⟨closed, unlocking, file⟩ := file.unlock (held _)
  refine ⟨closed, _, ?_, ?_, file, ?_, rfl, ?_, number, ?_⟩
  · simp only [run, createAndDrop, next, allocated, locking, unlocking, Except.toOption,
      Option.bind_some]
  · have first : Reaches next KeepsInodes (boot image.sector) created :=
      Reaches.start.next (.ialloc tFile 1) ⟨by simp only [InodeCall]; decide, by simp⟩
        (by rw [next, allocated]; rfl)
    have second : Reaches next KeepsInodes (boot image.sector) opened :=
      first.next (.ilock 0) ⟨trivial, by simp⟩ (by rw [next, locking]; rfl)
    exact second.next (.iunlock 0) ⟨trivial, by simp⟩ (by rw [next, unlocking]; rfl)
  · simp [lastReference, ref, Dinode.blank]
  · intro index
    exact Dinode.blank_addr index
  · rw [iunlock_disk unlocking, ilock_disk locking]
    exact ialloc_plain booted (boot_plain (mkfs_plain accepted)) (by decide) allocated

theorem statistics_exact_after_create :
    ∃ image fs, Mkfs.mkfs [] = some image ∧ PlainImage image.sector ∧
      Reaches next KeepsInodes (boot image.sector) fs ∧ lastReference (fs.icache 0) = true ∧
      0 < fs.sb.nblockgroups ∧ StatsExact fs 0 := by
  obtain ⟨image, accepted, -⟩ := MkfsInodes.mkfs_accepts_empty_files [] (by decide) (by simp)
  obtain ⟨fs, ip, -, reached, file, last, -, -, -, -⟩ := create_and_drop accepted
  have inside : 0 < fs.sb.nblockgroups := by
    rw [file.layout]
    decide
  have plain := mkfs_plain accepted
  exact ⟨image, fs, accepted, plain, reached, file.entry ▸ last, inside,
    statistics_exact_over_runs plain reached inside⟩

/-- With no guard, the first freed inode leaves the record of its group one too high. -/
theorem freed_inode_still_counted : ∃ image before fs, Mkfs.mkfs [] = some image ∧
      run next (boot image.sector) (createAndDrop ++ [.iput 0]) = some fs ∧
      run next (boot image.sector) createAndDrop = some before ∧
      lastReference (before.icache 0) = true ∧ ¬ StatsExact fs 0 := by
  obtain ⟨image, accepted, -⟩ := MkfsInodes.mkfs_accepts_empty_files [] (by decide) (by simp)
  obtain ⟨before, ip, ran, reached, file, last, free, empty, number, -⟩ := create_and_drop accepted
  obtain ⟨fs, put⟩ := release_new_file file last free empty
  have counted := reached_counted (mkfs_plain accepted) reached
  have group : (before.icache 0).inum / 29 = 0 := by
    rw [file.entry]
    omega
  have stale : ¬ StatsExact fs ((before.icache 0).inum / 29) := by
    have dropped : iput before 0 = .ok fs := by
      simp only [step] at put
      split at put
      · exact put
      · contradiction
    apply iput_leaves_count counted _ _ dropped
    · rw [group]
      decide
    · rw [file.entry]
      exact last
    · rw [file.entry]
      exact empty
  refine ⟨image, before, fs, accepted, ?_, ran, by rw [file.entry]; exact last, group ▸ stale⟩
  rw [run_append, ran]
  simp only [run, next, put, Except.toOption, Option.bind_some]

end Xv6Hacks.GroupStatistics
