import Xv6Hacks.ClassicFs
import Xv6Hacks.Outcomes

/-!
# Which file holds which block

The blocks of an image in the classic layout: metadata in front, all marked in the
bitmap, and data blocks, of which the marked ones are held by one place of one inode
each. `loose` lists the blocks that are marked but held by no inode while a function
hands them out or takes them back. `ins` has the inodes that count, each as its holder
sees it, in memory or on disk.
-/

namespace Xv6Hacks.FileBlocks

open BlockOwnership ByteBuffers ClassicFs Function Outcomes WriteSequences
open BlockGroupLayout (ipb ipb_value ndirect nindirect sizeofUint)
open DiskFormat (Dinode blankBlock)

variable {b inum block index : Nat} {sb : Superblock} {fs' : Fs} {ins : Nat → Dinode}
  {loose : List Nat}

def dataStart (sb : Superblock) : Nat := sb.bmapstart + sb.size / bpb + 1

/-- The areas follow each other as `mkfs` lays them out, and fit on the disk. -/
structure Layout (sb : Superblock) : Prop where
  first : 1 < sb.inodestart
  inodes : sb.inodestart + sb.ninodes / ipb < sb.bmapstart
  data : dataStart sb ≤ sb.size
  disk : sb.size ≤ fssize

def IsData (sb : Superblock) (b : Nat) : Prop := dataStart sb ≤ b ∧ b < sb.size

def IsBitmap (sb : Superblock) (block : Nat) : Prop :=
  sb.bmapstart ≤ block ∧ block < dataStart sb

def marked (fs : Fs) (b : Nat) : Bool := bitSet (fs.disk (bblock b fs.sb)) (b % bpb)

theorem bpb_value : bpb = 4096 := by decide

theorem bblock_bitmap (inside : b < sb.size) : IsBitmap sb (bblock b sb) := by
  unfold IsBitmap dataStart bblock
  rw [bpb_value]
  omega

theorem Layout.iblock_place (layout : Layout sb) (inside : inum < sb.ninodes) :
    1 < iblock inum sb ∧ iblock inum sb < sb.bmapstart := by
  have first := layout.first
  have inodes := layout.inodes
  unfold iblock
  rw [ipb_value] at inodes ⊢
  omega

theorem Layout.metadata_on_disk (layout : Layout sb) (inside : block < dataStart sb) :
    block < fssize :=
  inside.trans_le (Nat.le_trans layout.data layout.disk)

theorem marked_set (fs : Fs) (b other : Nat) :
    marked (logWrite fs (bblock b fs.sb) (setBit (fs.disk (bblock b fs.sb)) (b % bpb))) other =
    (decide (other = b) || marked fs other) := by
  unfold marked logWrite
  by_cases block : other / bpb = b / bpb
  · have sameBlock : bblock other fs.sb = bblock b fs.sb := by
      unfold bblock
      rw [block]
    simp only [sameBlock, update_self]
    rw [bit_set_set_bit]
    congr 1
    apply decide_eq_decide.mpr
    constructor
    · intro rest
      rw [← Nat.div_add_mod other bpb, block, rest, Nat.div_add_mod]
    · intro same
      rw [same]
  · have otherBlock : bblock other fs.sb ≠ bblock b fs.sb := by
      unfold bblock
      omega
    simp only [update_of_ne otherBlock]
    have different : other ≠ b := by
      intro same
      rw [same] at block
      exact block rfl
    simp [different]

theorem marked_clear (fs : Fs) (b other : Nat) :
    marked (logWrite fs (bblock b fs.sb) (clearBit (fs.disk (bblock b fs.sb)) (b % bpb))) other =
    (decide (other ≠ b) && marked fs other) := by
  unfold marked logWrite
  by_cases block : other / bpb = b / bpb
  · have sameBlock : bblock other fs.sb = bblock b fs.sb := by
      unfold bblock
      rw [block]
    simp only [sameBlock, update_self]
    rw [bit_set_clear_bit]
    congr 1
    apply decide_eq_decide.mpr
    constructor
    · intro rest same
      rw [same] at rest
      exact rest rfl
    · intro different rest
      apply different
      rw [← Nat.div_add_mod other bpb, block, rest, Nat.div_add_mod]
  · have otherBlock : bblock other fs.sb ≠ bblock b fs.sb := by
      unfold bblock
      omega
    simp only [update_of_ne otherBlock]
    have different : other ≠ b := by
      intro same
      rw [same] at block
      exact block rfl
    simp [different]

theorem marked_congr {fs : Fs} (sb : fs'.sb = fs.sb)
    (same : ∀ block, IsBitmap fs.sb block → fs'.disk block = fs.disk block)
    (inside : b < fs.sb.size) : marked fs' b = marked fs b := by
  unfold marked
  rw [sb, same _ (bblock_bitmap inside)]

structure Held (fs : Fs) (ins : Nat → Dinode) (loose : List Nat) : Prop where
  layout : Layout fs.sb
  superblock : readSuperblock (fs.disk 1) = fs.sb
  reserved : ∀ b, b < dataStart fs.sb → marked fs b = true
  used : ∀ inum place, refAt fs.disk (ins inum) place ≠ 0 →
    IsData fs.sb (refAt fs.disk (ins inum) place) ∧
      marked fs (refAt fs.disk (ins inum) place) = true
  distinct : ∀ inum place other elsewhere, refAt fs.disk (ins inum) place ≠ 0 →
    refAt fs.disk (ins inum) place = refAt fs.disk (ins other) elsewhere →
      inum = other ∧ place = elsewhere
  looseUsed : ∀ b, b ∈ loose → IsData fs.sb b ∧ marked fs b = true
  looseApart : ∀ b, b ∈ loose → ∀ inum place, refAt fs.disk (ins inum) place ≠ b
  looseOnce : loose.Nodup

section Holding
variable {fs : Fs} {ins : Nat → Dinode} {loose : List Nat}

theorem data_ne_zero (data : IsData sb b) : b ≠ 0 := by
  have lower := data.1
  unfold dataStart at lower
  rw [bpb_value] at lower
  omega

theorem Held.same_refs (held : Held fs ins loose) (fs' : Fs)
    (same : ∀ block, IsData fs.sb block → marked fs block = true →
    fs'.disk block = fs.disk block) (inum : Nat) (place : Place) :
    refAt fs'.disk (ins inum) place = refAt fs.disk (ins inum) place := by
  apply ref_at_congr _ _ _ _ rfl
  intro present
  obtain ⟨data, mark⟩ := held.used inum (.addr ndirect) present
  exact same _ data mark

end Holding

/-- A buffer that the caller keeps busy is that of a data block in use. -/
def Busy (fs : Fs) (busy : Option Nat) : Prop :=
  ∀ block, busy = some block → IsData fs.sb block ∧ marked fs block = true

section Allocating
variable {fs : Fs} {busy : Option Nat}

theorem bread_ok (free : busy ≠ some block) (inside : block < fssize) :
    bread fs busy block = .ok (fs.disk block) := by
  unfold bread
  rw [if_neg free, if_pos inside]

theorem bread_metadata (layout : Layout fs.sb) (held : Busy fs busy)
    (inside : block < dataStart fs.sb) : bread fs busy block = .ok (fs.disk block) := by
  refine bread_ok ?_ (layout.metadata_on_disk inside)
  intro same
  have lower := (held block same).1.1
  omega

theorem clear_bit_of_some {buf : Buffer} {bi : Nat} (found : clearBitOf sb buf b = some bi) :
    bi < bpb ∧ b + bi < sb.size ∧ bitSet buf bi = false := by
  unfold clearBitOf at found
  rw [List.find?_range_eq_some] at found
  obtain ⟨clear, member, -⟩ := found
  rw [List.mem_range] at member
  exact ⟨by omega, by omega, by simpa using clear⟩

theorem clear_bit_of_none {buf : Buffer} (missing : clearBitOf sb buf b = none) (bi : Nat)
    (bound : bi < bpb) (inside : b + bi < sb.size) : bitSet buf bi = true := by
  unfold clearBitOf at missing
  rw [List.find?_range_eq_none] at missing
  simpa using missing bi (by omega)

theorem marked_in_block (fs : Fs) (g bi : Nat) (bound : bi < bpb) :
    marked fs (g * bpb + bi) = bitSet (fs.disk (bblock (g * bpb) fs.sb)) bi := by
  unfold marked bblock
  rw [bpb_value] at bound ⊢
  rw [show (g * 4096 + bi) / 4096 = g * 4096 / 4096 by omega,
    show (g * 4096 + bi) % 4096 = bi by omega]

theorem scan_bitmaps_spec (layout : Layout fs.sb) (held : Busy fs busy) (g : Nat) :
    ∃ result, scanBitmaps fs busy (g * bpb) = .ok result ∧
      match result with
      | some b => b < fs.sb.size ∧ marked fs b = false
      | none => ∀ b, g * bpb ≤ b → b < fs.sb.size → marked fs b = true := by
  rw [scanBitmaps]
  by_cases inside : g * bpb < fs.sb.size
  · rw [if_pos inside, bread_metadata layout held (bblock_bitmap inside).2, ok_bind]
    cases scanned : clearBitOf fs.sb (fs.disk (bblock (g * bpb) fs.sb)) (g * bpb) with
    | some bi =>
      obtain ⟨bound, below, clear⟩ := clear_bit_of_some scanned
      refine ⟨some (g * bpb + bi), rfl, below, ?_⟩
      rw [marked_in_block fs g bi bound, clear]
    | none =>
      have width := bpb_value
      have next : g * bpb + bpb = (g + 1) * bpb := by
        rw [Nat.succ_mul]
      obtain ⟨result, found, facts⟩ := scan_bitmaps_spec layout held (g + 1)
      simp only [next]
      refine ⟨result, found, ?_⟩
      cases result with
      | some b => exact facts
      | none =>
        intro b lower below
        by_cases here : b < (g + 1) * bpb
        · rw [show b = g * bpb + (b - g * bpb) by omega,
            marked_in_block fs g _ (by omega)]
          exact clear_bit_of_none scanned _ (by omega) (by omega)
        · exact facts b (by omega) below
  · rw [if_neg inside]
    refine ⟨none, rfl, ?_⟩
    intro b lower below
    omega
termination_by fs.sb.size - g * bpb
decreasing_by
  have width := bpb_value
  omega

theorem data_not_bitmap (data : IsData sb b) : ¬ IsBitmap sb b := by
  intro bitmap
  have lower := data.1
  have upper := bitmap.2
  omega

theorem Layout.superblock_place (layout : Layout sb) : 1 < sb.bmapstart := by
  have first := layout.first
  have inodes := layout.inodes
  rw [ipb_value] at inodes
  omega

theorem data_above (data : IsData sb b) : sb.bmapstart < b := by
  have lower := data.1
  unfold dataStart at lower
  rw [bpb_value] at lower
  omega

structure Took (fs : Fs) (b : Nat) (fs' : Fs) : Prop where
  sb : fs'.sb = fs.sb
  data : IsData fs.sb b
  fresh : marked fs b = false
  blank : fs'.disk b = blankBlock
  marks : ∀ other, other < fs.sb.size → marked fs' other = (decide (other = b) || marked fs other)
  others : ∀ block, ¬ IsBitmap fs.sb block → block ≠ b → fs'.disk block = fs.disk block

theorem take_block_took (layout : Layout fs.sb)
    (reserved : ∀ b, b < dataStart fs.sb → marked fs b = true) (held : Busy fs busy)
    (below : b < fs.sb.size) (clear : marked fs b = false) :
    ∃ fs', takeBlock fs busy b = .ok (b, fs') ∧ Took fs b fs' := by
  have bitmap := bblock_bitmap below
  have data : IsData fs.sb b := by
    refine ⟨?_, below⟩
    by_contra metadata
    rw [reserved b (by omega)] at clear
    contradiction
  have notBusy : busy ≠ some b := by
    intro same
    rw [(held b same).2] at clear
    contradiction
  refine ⟨logWrite (logWrite fs (bblock b fs.sb)
    (setBit (fs.disk (bblock b fs.sb)) (b % bpb))) b blankBlock, ?_, ?_⟩
  · unfold takeBlock bzero
    rw [bread_metadata layout held bitmap.2, ok_bind]
    simp only [bread_ok notBusy (below.trans_le layout.disk), ok_bind]
  · refine ⟨rfl, data, clear, update_self _ _ _, ?_, ?_⟩
    · intro other inside
      have inside' : other < (logWrite fs (bblock b fs.sb)
          (setBit (fs.disk (bblock b fs.sb)) (b % bpb))).sb.size := inside
      rw [← marked_set fs b other]
      refine marked_congr (by rfl) ?_ inside'
      intro block isBitmap
      refine update_of_ne ?_ _ _
      intro same
      rw [same] at isBitmap
      exact data_not_bitmap data isBitmap
    · intro block notBitmap different
      have notHere : block ≠ bblock b fs.sb := by
        intro same
        rw [same] at notBitmap
        exact notBitmap bitmap
      exact (update_of_ne different _ _).trans (update_of_ne notHere _ _)

theorem Took.held (took : Took fs b fs') (held : Held fs ins loose) :
    Held fs' ins (b :: loose) := by
  have outside {block : Nat} (data : IsData fs.sb block) (mark : marked fs block = true) :
      fs'.disk block = fs.disk block := by
    apply took.others block (data_not_bitmap data)
    intro same
    rw [same, took.fresh] at mark
    contradiction
  have refs := held.same_refs fs' fun block data mark => outside data mark
  have still {block : Nat} (inside : block < fs.sb.size) (mark : marked fs block = true) :
      marked fs' block = true := by
    rw [took.marks block inside, mark, Bool.or_true]
  have superblock := held.layout.superblock_place
  have one : fs'.disk 1 = fs.disk 1 := by
    apply took.others 1
    · intro bitmap
      have lower := bitmap.1
      omega
    · intro same
      have above := data_above took.data
      omega
  refine
    { layout := by rw [took.sb]; exact held.layout
      superblock := by rw [one, took.sb]; exact held.superblock
      reserved := ?_
      used := ?_
      distinct := ?_
      looseUsed := ?_
      looseApart := ?_
      looseOnce := ?_ }
  · intro block metadata
    rw [took.sb] at metadata
    exact still (metadata.trans_le held.layout.data) (held.reserved block metadata)
  · intro inum place present
    rw [refs] at present
    rw [refs, took.sb]
    obtain ⟨data, mark⟩ := held.used inum place present
    exact ⟨data, still data.2 mark⟩
  · intro inum place other elsewhere present same
    rw [refs] at present
    rw [refs, refs] at same
    exact held.distinct inum place other elsewhere present same
  · intro block member
    rw [took.sb]
    rcases List.mem_cons.mp member with here | old
    · subst here
      refine ⟨took.data, ?_⟩
      rw [took.marks block took.data.2]
      simp
    · obtain ⟨data, mark⟩ := held.looseUsed block old
      exact ⟨data, still data.2 mark⟩
  · intro block member inum place
    rw [refs]
    rcases List.mem_cons.mp member with here | old
    · subst here
      intro same
      have present : refAt fs.disk (ins inum) place ≠ 0 := by
        rw [same]
        exact data_ne_zero took.data
      have mark := (held.used inum place present).2
      rw [same, took.fresh] at mark
      contradiction
    · exact held.looseApart block old inum place
  · refine List.nodup_cons.mpr ⟨?_, held.looseOnce⟩
    intro member
    have mark := (held.looseUsed b member).2
    rw [took.fresh] at mark
    contradiction

theorem balloc_spec (held : Held fs ins loose) (isBusy : Busy fs busy) :
    Yields (balloc fs busy) (fun result => Took fs result.1 result.2)
    (fun stop => stop = .outOfBlocks ∧ ∀ b, b < fs.sb.size → marked fs b = true) := by
  obtain ⟨result, scanned, facts⟩ := scan_bitmaps_spec held.layout isBusy 0
  rw [Nat.zero_mul] at scanned facts
  unfold balloc
  rw [scanned, ok_bind]
  cases result with
  | some b =>
    obtain ⟨fs', taken, took⟩ := take_block_took held.layout held.reserved isBusy facts.1 facts.2
    simp only [taken]
    exact took
  | none => exact ⟨rfl, fun b below => facts b b.zero_le below⟩

structure Gave (fs : Fs) (b : Nat) (fs' : Fs) : Prop where
  sb : fs'.sb = fs.sb
  marks : ∀ other, marked fs' other = (decide (other ≠ b) && marked fs other)
  others : ∀ block, ¬ IsBitmap fs.sb block → fs'.disk block = fs.disk block

theorem bfree_gave (held : Held fs ins (b :: loose)) (isBusy : Busy fs busy) :
    ∃ fs', bfree fs busy b = .ok fs' ∧ Gave fs b fs' := by
  obtain ⟨data, mark⟩ := held.looseUsed b (.head _)
  have bitmap := bblock_bitmap data.2
  have superblock := held.layout.superblock_place
  have one : 1 < dataStart fs.sb := by
    have lower := bitmap.1
    have upper := bitmap.2
    omega
  have same : { fs with sb := readSuperblock (fs.disk 1) } = fs := by
    rw [held.superblock]
  refine ⟨logWrite fs (bblock b fs.sb) (clearBit (fs.disk (bblock b fs.sb)) (b % bpb)), ?_,
    rfl, marked_clear fs b, ?_⟩
  · unfold bfree
    rw [bread_metadata held.layout isBusy one, ok_bind, same]
    simp only [bread_metadata held.layout isBusy bitmap.2, ok_bind]
    exact if_pos mark
  · intro block notBitmap
    refine update_of_ne ?_ _ _
    intro here
    rw [here] at notBitmap
    exact notBitmap bitmap

theorem Gave.held (gave : Gave fs b fs') (held : Held fs ins (b :: loose)) :
    Held fs' ins loose := by
  have refs := held.same_refs fs'
    fun block data _ => gave.others block (data_not_bitmap data)
  have still {block : Nat} (other : block ≠ b) (mark : marked fs block = true) :
      marked fs' block = true := by
    rw [gave.marks block, mark]
    simp [other]
  have dataB := (held.looseUsed b (.head _)).1
  have superblock := held.layout.superblock_place
  have one : fs'.disk 1 = fs.disk 1 := by
    apply gave.others 1
    intro bitmap
    have lower := bitmap.1
    omega
  have once := List.nodup_cons.mp held.looseOnce
  refine
    { layout := by rw [gave.sb]; exact held.layout
      superblock := by rw [one, gave.sb]; exact held.superblock
      reserved := ?_
      used := ?_
      distinct := ?_
      looseUsed := ?_
      looseApart := ?_
      looseOnce := once.2 }
  · intro block metadata
    rw [gave.sb] at metadata
    have lower := dataB.1
    exact still (by omega) (held.reserved block metadata)
  · intro inum place present
    rw [refs] at present
    rw [refs, gave.sb]
    obtain ⟨data, mark⟩ := held.used inum place present
    exact ⟨data, still (held.looseApart b (.head _) inum place) mark⟩
  · intro inum place other elsewhere present same
    rw [refs] at present
    rw [refs, refs] at same
    exact held.distinct inum place other elsewhere present same
  · intro block member
    rw [gave.sb]
    obtain ⟨data, mark⟩ := held.looseUsed block (.tail b member)
    refine ⟨data, still ?_ mark⟩
    intro same
    rw [same] at member
    exact once.1 member
  · intro block member inum place
    rw [refs]
    exact held.looseApart block (.tail b member) inum place

end Allocating

section Attaching
variable {fs : Fs} {ins : Nat → Dinode} {loose : List Nat}

theorem Held.attach {ins' : Nat → Dinode} (held : Held fs ins (b :: loose)) (holder : Nat)
    (position : Place) (sb : fs'.sb = fs.sb)
    (metadata : ∀ block, block < dataStart fs.sb → fs'.disk block = fs.disk block)
    (added : refAt fs'.disk (ins' holder) position = b)
    (kept : ∀ inum place, inum ≠ holder ∨ place ≠ position →
    refAt fs'.disk (ins' inum) place = refAt fs.disk (ins inum) place) : Held fs' ins' loose := by
  obtain ⟨dataB, markB⟩ := held.looseUsed b (.head _)
  have bitmap (block : Nat) (isBitmap : IsBitmap fs.sb block) :
      fs'.disk block = fs.disk block := metadata block isBitmap.2
  have marks {block : Nat} (inside : block < fs.sb.size) : marked fs' block = marked fs block :=
    marked_congr sb bitmap inside
  have superblock := held.layout.superblock_place
  have once := List.nodup_cons.mp held.looseOnce
  have apart {inum : Nat} {place : Place} (elsewhere : inum ≠ holder ∨ place ≠ position) :
      refAt fs'.disk (ins' inum) place ≠ b := by
    rw [kept inum place elsewhere]
    exact held.looseApart b (.head _) inum place
  refine
    { layout := by rw [sb]; exact held.layout
      superblock := ?_
      reserved := ?_
      used := ?_
      distinct := ?_
      looseUsed := ?_
      looseApart := ?_
      looseOnce := once.2 }
  · rw [metadata 1 (by unfold dataStart; rw [bpb_value]; omega), sb]
    exact held.superblock
  · intro block inside
    rw [sb] at inside
    rw [marks (inside.trans_le held.layout.data)]
    exact held.reserved block inside
  · intro inum place present
    rw [sb]
    by_cases here : inum = holder ∧ place = position
    · rw [here.1, here.2, added]
      exact ⟨dataB, (marks dataB.2).trans markB⟩
    · rw [kept inum place (by tauto)] at present ⊢
      obtain ⟨data, mark⟩ := held.used inum place present
      exact ⟨data, (marks data.2).trans mark⟩
  · intro inum place other elsewhere present same
    by_cases here : inum = holder ∧ place = position
    · by_cases there : other = holder ∧ elsewhere = position
      · exact ⟨here.1.trans there.1.symm, here.2.trans there.2.symm⟩
      · rw [here.1, here.2, added] at same
        exact absurd same.symm (apart (by tauto))
    · by_cases there : other = holder ∧ elsewhere = position
      · rw [there.1, there.2, added] at same
        exact absurd same (apart (by tauto))
      · rw [kept inum place (by tauto)] at present same
        rw [kept other elsewhere (by tauto)] at same
        exact held.distinct inum place other elsewhere present same
  · intro block member
    rw [sb]
    obtain ⟨data, mark⟩ := held.looseUsed block (.tail b member)
    exact ⟨data, (marks data.2).trans mark⟩
  · intro block member inum place
    by_cases here : inum = holder ∧ place = position
    · rw [here.1, here.2, added]
      intro same
      rw [same] at once
      exact once.1 member
    · rw [kept inum place (by tauto)]
      exact held.looseApart block (.tail b member) inum place

theorem Held.detach {ins' : Nat → Dinode} (more : List Nat) (held : Held fs ins loose)
    (kept : ∀ inum place, refAt fs.disk (ins' inum) place = refAt fs.disk (ins inum) place ∨
    refAt fs.disk (ins' inum) place = 0)
    (moved : ∀ b, b ∈ more → ∃ inum place, refAt fs.disk (ins inum) place = b ∧ b ≠ 0 ∧
    refAt fs.disk (ins' inum) place = 0) (once : more.Nodup) : Held fs ins' (more ++ loose) := by
  have old {inum : Nat} {place : Place} (present : refAt fs.disk (ins' inum) place ≠ 0) :
      refAt fs.disk (ins' inum) place = refAt fs.disk (ins inum) place := by
    rcases kept inum place with same | gone
    · exact same
    · exact absurd gone present
  refine
    { layout := held.layout
      superblock := held.superblock
      reserved := held.reserved
      used := ?_
      distinct := ?_
      looseUsed := ?_
      looseApart := ?_
      looseOnce := ?_ }
  · intro inum place present
    have same := old present
    rw [same] at present ⊢
    exact held.used inum place present
  · intro inum place other elsewhere present same
    have here := old present
    have there := old (same ▸ present : refAt fs.disk (ins' other) elsewhere ≠ 0)
    rw [here, there] at same
    rw [here] at present
    exact held.distinct inum place other elsewhere present same
  · intro b member
    rcases List.mem_append.mp member with new | before
    · obtain ⟨inum, place, same, nonzero, -⟩ := moved b new
      subst same
      exact held.used inum place nonzero
    · exact held.looseUsed b before
  · intro b member inum place same
    have nonzero : b ≠ 0 := by
      rcases List.mem_append.mp member with new | before
      · obtain ⟨_, _, -, nonzero, -⟩ := moved b new
        exact nonzero
      · exact data_ne_zero (held.looseUsed b before).1
    have present : refAt fs.disk (ins' inum) place ≠ 0 := by
      rw [same]
      exact nonzero
    have here := old present
    rw [same] at here
    rcases List.mem_append.mp member with new | before
    · obtain ⟨other, elsewhere, was, -, gone⟩ := moved b new
      rcases held.distinct other elsewhere inum place (by rw [was]; exact nonzero)
        (was.trans here) with ⟨sameInode, samePlace⟩
      rw [sameInode, samePlace] at gone
      exact present gone
    · exact held.looseApart b before inum place here.symm
  · refine List.nodup_append.mpr ⟨once, held.looseOnce, ?_⟩
    intro b new other before same
    subst same
    obtain ⟨inum, place, was, -, -⟩ := moved b new
    exact held.looseApart b before inum place was

theorem loose_uint (held : Held fs ins loose) (member : b ∈ loose) : b < 2 ^ 32 := by
  have below := (held.looseUsed b member).1.2
  have disk := held.layout.disk
  unfold fssize at disk
  omega

theorem ref_at_set_addr (disk : Store Buffer) (d : Dinode) {value : Nat}
    (bound : index < ndirect + 1) (uint : value < 2 ^ 32) (absent : d.addr index = 0)
    (blank : disk value = blankBlock) {place : Place} (other : place ≠ .addr index) :
    refAt disk (d.setAddr index value) place = refAt disk d place := by
  by_cases direct : index < ndirect
  · exact ref_at_set_direct disk d index value direct place other
  · have last : index = ndirect := by omega
    subst last
    exact ref_at_set_indirect disk d value uint absent blank place other

theorem Held.attach_addr (held : Held fs ins (b :: loose)) (inum : Nat)
    (bound : index < ndirect + 1) (absent : (ins inum).addr index = 0)
    (blank : fs.disk b = blankBlock) :
    Held fs (update ins inum ((ins inum).setAddr index b)) loose := by
  have uint := loose_uint held (.head _)
  refine held.attach inum (.addr index) rfl (fun _ _ => rfl) ?_ ?_
  · rw [update_self]
    exact Dinode.addr_set_same _ index b bound uint
  · intro other place elsewhere
    by_cases same : other = inum
    · subst same
      rw [update_self]
      exact ref_at_set_addr fs.disk _ bound uint absent blank (by tauto)
    · rw [update_of_ne same]

theorem Held.indirect_ne (held : Held fs ins loose) {other : Nat} (place : Place)
    (present : refAt fs.disk (ins other) place ≠ 0)
    (elsewhere : inum ≠ other ∨ place ≠ .addr ndirect) :
    (ins inum).addr ndirect ≠ refAt fs.disk (ins other) place := by
  intro same
  obtain ⟨sameInode, samePlace⟩ := held.distinct other place inum (.addr ndirect) present same.symm
  rcases elsewhere with different | different
  · exact different sameInode.symm
  · exact different samePlace

theorem ref_at_write_entry (held : Held fs ins loose) (value : Nat)
    (present : (ins inum).addr ndirect ≠ 0) (other : Nat) {place : Place}
    (elsewhere : other ≠ inum ∨ place ≠ .entry index) :
    refAt (update fs.disk ((ins inum).addr ndirect)
    (writeLE (fs.disk ((ins inum).addr ndirect)) (sizeofUint * index) sizeofUint value))
    (ins other) place = refAt fs.disk (ins other) place := by
  by_cases same : other = inum
  · subst same
    cases place with
    | addr slot => rfl
    | entry slot =>
      have different : slot ≠ index := by
        intro equal
        subst equal
        simp at elsewhere
      simp only [refAt]
      rw [update_self, read_le_write_apart]
      simp only [sizeofUint]
      omega
  · apply ref_at_congr _ _ _ _ rfl
    intro _
    exact update_of_ne (held.indirect_ne (.addr ndirect) present (.inl same)) _ _

theorem Held.attach_entry (held : Held fs ins (b :: loose)) (bound : index < nindirect)
    (present : (ins inum).addr ndirect ≠ 0) : Held (logWrite fs ((ins inum).addr ndirect)
    (writeLE (fs.disk ((ins inum).addr ndirect)) (sizeofUint * index) sizeofUint b)) ins loose := by
  have uint := loose_uint held (.head _)
  have data := (held.used inum (.addr ndirect) present).1
  refine held.attach inum (.entry index) rfl ?_ ?_ ?_
  · intro block metadata
    refine update_of_ne ?_ _ _
    intro same
    have lower : dataStart fs.sb ≤ (ins inum).addr ndirect := data.1
    omega
  · simp only [refAt, logWrite]
    rw [if_neg (by omega), update_self, read_le_write_same]
    exact Nat.mod_eq_of_lt uint
  · intro other place elsewhere
    exact ref_at_write_entry held b present other elsewhere

theorem Held.reshape {ins' : Nat → Dinode} (held : Held fs ins loose) (sb : fs'.sb = fs.sb)
    (one : fs'.disk 1 = fs.disk 1)
    (bitmap : ∀ block, IsBitmap fs.sb block → fs'.disk block = fs.disk block)
    (refs : ∀ inum place, refAt fs'.disk (ins' inum) place = refAt fs.disk (ins inum) place) :
    Held fs' ins' loose := by
  have marks {block : Nat} (inside : block < fs.sb.size) : marked fs' block = marked fs block :=
    marked_congr sb bitmap inside
  refine
    { layout := by rw [sb]; exact held.layout
      superblock := by rw [one, sb]; exact held.superblock
      reserved := ?_
      used := ?_
      distinct := ?_
      looseUsed := ?_
      looseApart := ?_
      looseOnce := held.looseOnce }
  · intro block metadata
    rw [sb] at metadata
    rw [marks (metadata.trans_le held.layout.data)]
    exact held.reserved block metadata
  · intro inum place present
    rw [refs] at present
    rw [refs, sb]
    obtain ⟨data, mark⟩ := held.used inum place present
    exact ⟨data, (marks data.2).trans mark⟩
  · intro inum place other elsewhere present same
    rw [refs] at present
    rw [refs, refs] at same
    exact held.distinct inum place other elsewhere present same
  · intro block member
    rw [sb]
    obtain ⟨data, mark⟩ := held.looseUsed block member
    exact ⟨data, (marks data.2).trans mark⟩
  · intro block member inum place
    rw [refs]
    exact held.looseApart block member inum place

theorem Held.write_data (held : Held fs ins loose) (data : IsData fs.sb block) (content : Buffer)
    (plain : ∀ inum, (ins inum).addr ndirect ≠ block) :
    Held (logWrite fs block content) ins loose := by
  have superblock := held.layout.superblock_place
  refine held.reshape rfl ?_ ?_ ?_
  · have above := data_above data
    exact update_of_ne (by omega) _ _
  · intro other bitmap
    refine update_of_ne ?_ _ _
    intro same
    rw [same] at bitmap
    exact data_not_bitmap data bitmap
  · intro inum place
    apply ref_at_congr _ _ _ _ rfl
    intro _
    exact update_of_ne (plain inum) _ _

theorem Held.write_inode_block (held : Held fs ins loose) (after : 1 < block)
    (before : block < fs.sb.bmapstart) (content : Buffer) :
    Held (logWrite fs block content) ins loose := by
  refine held.reshape rfl ?_ ?_ ?_
  · exact update_of_ne (by omega) _ _
  · intro other bitmap
    have lower := bitmap.1
    exact update_of_ne (by omega) _ _
  · refine held.same_refs _ ?_
    intro other data _
    have above := data_above data
    exact update_of_ne (by omega) _ _

end Attaching
end Xv6Hacks.FileBlocks
