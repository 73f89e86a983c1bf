import Mathlib.Algebra.BigOperators.Group.Finset.Piecewise
import Mathlib.Data.List.GetD
import Xv6Hacks.MkfsInodes

/-!
# The contents of the image

What `ialloc` and `iappend` of `mkfs.c` leave on the image: the bytes of a file, found
through `addrs[]` and the indirect block, are those appended to it, a file has the blocks
of its size and no others, and `freeblock` counts them.
-/

namespace Xv6Hacks.ImageContents

open Function
open BlockGroupLayout BlockOwnership ByteBuffers DiskFormat ImageConsistency Mkfs MkfsInodes
open WriteSequences

variable {top bn inum : Nat} {disk after : Store Buffer} {d : Dinode} {inodes : Nat → Dinode}
  {image : Image} {files : Nat → List Byte}

def byteAt (disk : Store Buffer) (d : Dinode) (i : Nat) : Byte :=
  disk (refAt disk d (blockPlace (i / bsize))) (i % bsize)

def fileBytes (disk : Store Buffer) (d : Dinode) : List Byte :=
  (List.range d.size.toNat).map (byteAt disk d)

def blocksFor (size : Nat) : Nat := (size + (bsize - 1)) / bsize

/-- The blocks a file of `top` blocks takes, with its indirect block. -/
def needed (top : Nat) : Nat := if ndirect < top then top + 1 else top

/-- The file has its first `top` blocks and no others, and they begin with `data`. The
blocks in front of `nmeta` are never handed out. -/
structure Filed (disk : Store Buffer) (d : Dinode) (data : List Byte) (top : Nat) : Prop where
  fits : top ≤ maxfile
  room : data.length ≤ top * bsize
  blocks : ∀ bn, bn < maxfile → (refAt disk d (blockPlace bn) ≠ 0 ↔ bn < top)
  late : ∀ place, refAt disk d place ≠ 0 → dblock (nmeta blockgroups) sb ≤ refAt disk d place
  bytes : ∀ i, i < data.length → byteAt disk d i = data.getD i 0

/-- Two disks show the same file: the references agree, and so do its data blocks. -/
structure SameFile (disk : Store Buffer) (d : Dinode) (after : Store Buffer)
    (changed : Dinode) : Prop where
  refs : ∀ place, refAt after changed place = refAt disk d place
  data : ∀ bn, refAt disk d (blockPlace bn) ≠ 0 →
    after (refAt disk d (blockPlace bn)) = disk (refAt disk d (blockPlace bn))

theorem SameFile.refl (disk : Store Buffer) (d : Dinode) : SameFile disk d disk d :=
  ⟨fun _ => rfl, fun _ _ => rfl⟩

theorem SameFile.trans {middle : Store Buffer} {partway changed : Dinode}
    (first : SameFile disk d middle partway) (second : SameFile middle partway after changed) :
    SameFile disk d after changed where
  refs := fun place => (second.refs place).trans (first.refs place)
  data := by
    intro bn held
    have later := second.data bn
    rw [first.refs] at later
    rw [later held, first.data bn held]

theorem block_of_byte {i length : Nat} (inside : i < length) (room : length ≤ top * bsize) :
    i / bsize < top := by
  simp only [bsize] at room ⊢
  omega

theorem Filed.held {data : List Byte} (filed : Filed disk d data top) (below : bn < top) :
    refAt disk d (blockPlace bn) ≠ 0 :=
  (filed.blocks bn (below.trans_le filed.fits)).mpr below

theorem Filed.congr {changed : Dinode} {data : List Byte} (filed : Filed disk d data top)
    (same : SameFile disk d after changed) : Filed after changed data top where
  fits := filed.fits
  room := filed.room
  blocks := by
    intro bn bound
    rw [same.refs]
    exact filed.blocks bn bound
  late := by
    intro place held
    rw [same.refs] at held ⊢
    exact filed.late place held
  bytes := by
    intro i inside
    have held := filed.held (block_of_byte inside filed.room)
    rw [byteAt, same.refs, same.data _ held]
    exact filed.bytes i inside

theorem filed_blank (disk : Store Buffer) : Filed disk Dinode.blank [] 0 where
  fits := Nat.zero_le _
  room := Nat.zero_le _
  blocks := by
    intro bn _
    rw [ref_at_blank]
    exact ⟨fun held => absurd rfl held, fun below => absurd below (Nat.not_lt_zero bn)⟩
  late := by
    intro place held
    exact absurd (ref_at_blank disk place) held
  bytes := by
    intro i inside
    exact absurd inside (Nat.not_lt_zero i)

theorem Filed.extend {grown : Dinode} {data : List Byte} {value : Nat}
    (filed : Filed disk d data top) (small : top < maxfile)
    (late : dblock (nmeta blockgroups) sb ≤ value) (nonzero : value ≠ 0)
    (added : refAt after grown (blockPlace top) = value)
    (kept : ∀ place, place ≠ blockPlace top → refAt after grown place = refAt disk d place)
    (data' : ∀ bn, bn < top →
    after (refAt disk d (blockPlace bn)) = disk (refAt disk d (blockPlace bn))) :
    Filed after grown data (top + 1) := by
  have other {bn : Nat} (different : bn ≠ top) : blockPlace bn ≠ blockPlace top :=
    fun same => different (block_place_injective same)
  constructor
  · exact small
  · have room := filed.room
    rw [Nat.succ_mul]
    omega
  · intro bn bound
    by_cases last : bn = top
    · rw [last, added]
      exact ⟨fun _ => Nat.lt_succ_self top, fun _ => nonzero⟩
    · rw [kept _ (other last), filed.blocks bn bound]
      omega
  · intro place held
    by_cases last : place = blockPlace top
    · rw [last, added]
      exact late
    · rw [kept place last] at held ⊢
      exact filed.late place held
  · intro i inside
    have below := block_of_byte inside filed.room
    rw [byteAt, kept _ (other (by omega)), data' _ below]
    exact filed.bytes i inside

theorem Filed.add_indirect {data : List Byte} {value : Nat} (filed : Filed disk d data top)
    (absent : d.addr ndirect = 0) (uint : value < 2 ^ 32)
    (late : dblock (nmeta blockgroups) sb ≤ value) (empty : disk value = blankBlock) :
    Filed disk (d.setAddr ndirect value) data top := by
  have kept {place : Place} (other : place ≠ .addr ndirect) :
      refAt disk (d.setAddr ndirect value) place = refAt disk d place :=
    ref_at_set_indirect disk d value uint absent empty place other
  constructor
  · exact filed.fits
  · exact filed.room
  · intro bn bound
    rw [kept (block_place_data bn)]
    exact filed.blocks bn bound
  · intro place held
    by_cases here : place = .addr ndirect
    · rw [here]
      have added : refAt disk (d.setAddr ndirect value) (.addr ndirect) = value :=
        Dinode.addr_set_same d ndirect value ndirect.lt_succ_self uint
      rw [added]
      exact late
    · rw [kept here] at held ⊢
      exact filed.late place held
  · intro i inside
    rw [byteAt, kept (block_place_data _)]
    exact filed.bytes i inside

theorem Filed.store {data more : List Byte} (filed : Filed disk d data (bn + 1))
    (last : bn * bsize ≤ data.length) (room : data.length + more.length ≤ (bn + 1) * bsize)
    (refs : ∀ place, refAt (update disk (refAt disk d (blockPlace bn))
      (copyInto (disk (refAt disk d (blockPlace bn))) (data.length - bn * bsize) more)) d place =
        refAt disk d place) (apart : ∀ other, other < bn →
      refAt disk d (blockPlace other) ≠ refAt disk d (blockPlace bn)) :
    Filed (update disk (refAt disk d (blockPlace bn))
      (copyInto (disk (refAt disk d (blockPlace bn))) (data.length - bn * bsize) more)) d
      (data ++ more) (bn + 1) where
  fits := filed.fits
  room := by
    rw [List.length_append]
    exact room
  blocks := by
    intro other bound
    rw [refs]
    exact filed.blocks other bound
  late := by
    intro place held
    rw [refs] at held ⊢
    exact filed.late place held
  bytes := by
    intro i inside
    rw [List.length_append] at inside
    have below := block_of_byte inside room
    have size : bsize = 512 := rfl
    rw [size] at last room below
    rw [byteAt, refs, size]
    by_cases here : i / 512 = bn
    · rw [here, update_self, copyInto]
      by_cases new : data.length ≤ i
      · rw [if_pos (by omega), List.getD_append_right _ _ _ _ new]
        congr 1
        omega
      · have old := filed.bytes i (by omega)
        rw [byteAt, size, here] at old
        rw [if_neg (by omega), old, List.getD_append _ _ _ _ (by omega)]
    · have old := filed.bytes i (by omega)
      rw [byteAt, size] at old
      rw [update_of_ne (apart _ (by omega)), old, List.getD_append _ _ _ _ (by omega)]

def Others (inodes : Nat → Dinode) (inum : Nat) (disk after : Store Buffer) : Prop :=
  ∀ other, other ≠ inum → SameFile disk (inodes other) after (inodes other)

theorem Others.refl (inodes : Nat → Dinode) (inum : Nat) (disk : Store Buffer) :
    Others inodes inum disk disk := fun _ _ => SameFile.refl _ _

theorem Others.trans {middle : Store Buffer} (first : Others inodes inum disk middle)
    (second : Others inodes inum middle after) :
    Others inodes inum disk after := fun other different =>
  (first other different).trans (second other different)

theorem others_write {din : Dinode} {taken : Nat → Prop}
    (owned : Owned blockgroups taken (update inodes inum din) disk) (place : Place)
    (content : Buffer) : Others inodes inum disk (update disk (refAt disk din place) content) := by
  intro other different
  have mine : update inodes inum din inum = din := update_self _ _ _
  have theirs : update inodes inum din other = inodes other := update_of_ne different _ _
  have apart (elsewhere : Place) (kept : refAt disk (inodes other) elsewhere ≠ 0) :
      refAt disk (inodes other) elsewhere ≠ refAt disk din place := by
    intro same
    have clash := owned.distinct other elsewhere inum place (by rw [theirs]; exact kept)
      (by rw [theirs, mine]; exact same)
    exact different clash.1
  constructor
  · intro elsewhere
    apply ref_at_congr _ _ _ _ rfl
    intro present
    exact update_of_ne (apart (.addr ndirect) present) _ _
  · intro bn kept
    exact update_of_ne (apart (blockPlace bn) kept) _ _

def withEntry (disk : Store Buffer) (indirect index value : Nat) : Store Buffer :=
  update disk indirect
    (writeLE (disk indirect) (sizeofUint * index) sizeofUint value)

theorem ref_at_with_entry {index value : Nat} (present : d.addr ndirect ≠ 0)
    (bound : index < nindirect) (uint : value < 2 ^ 32) :
    refAt (withEntry disk (d.addr ndirect) index value) d (.entry index) = value := by
  rw [refAt, if_neg (by omega), withEntry, update_self, read_le_write_same]
  exact Nat.mod_eq_of_lt uint

theorem ref_at_with_entry_other (disk : Store Buffer) (d : Dinode) (index value : Nat)
    {place : Place} (other : place ≠ .entry index) :
    refAt (withEntry disk (d.addr ndirect) index value) d place = refAt disk d place := by
  cases place with
  | addr slot => rfl
  | entry slot =>
    have different : slot ≠ index := by
      rintro rfl
      exact other rfl
    simp only [refAt, withEntry]
    rw [update_self, read_le_write_apart]
    simp only [sizeofUint]
    omega

section Mapping
variable {inodes : Nat → Dinode} {inum : Nat} {image : Image} {din : Dinode} {data : List Byte}
variable {top : Nat}

theorem fill_addr_sector (d : Dinode) (index : Nat) (image : Image) :
    (fillAddr d index image).2.sector = image.sector := by
  rw [fillAddr]
  split <;> rfl

theorem dblock_mono {v w : Nat} (le : v ≤ w) : dblock v sb ≤ dblock w sb := by
  simp only [sb, dblock_eq]
  omega

variable (sound : Sound image (update inodes inum din))
variable (late : nmeta blockgroups ≤ image.freeblock) (filed : Filed image.sector din data top)
include late filed

theorem fill_direct (direct : bn < ndirect) (near : bn = top ∨ bn + 1 = top)
    (room : image.freeblock + (bn + 1) ≤ ndatablocks + top) :
    Filed image.sector (fillAddr din bn image).1 data (bn + 1) ∧
    (fillAddr din bn image).1.addr ndirect = din.addr ndirect ∧
    (fillAddr din bn image).2.freeblock + top = image.freeblock + (bn + 1) := by
  have place : blockPlace bn = .addr bn := if_pos direct
  have inFile : bn < maxfile := direct.trans_le (Nat.le_add_right _ _)
  rw [fillAddr]
  rcases near with new | old
  · subst new
    have absent : din.addr bn = 0 := by
      by_contra held
      have below := (filed.blocks bn inFile).mp (by rw [place]; exact held)
      exact lt_irrefl bn below
    rw [if_pos absent]
    have uint := dblock_uint image.freeblock (by omega)
    refine ⟨?_, ?_, by simp only; omega⟩
    · apply filed.extend inFile (dblock_mono late) (dblock_ne_zero image.freeblock)
      · rw [place]
        exact Dinode.addr_set_same _ _ _ (by omega) uint
      · intro other different
        exact ref_at_set_direct _ _ _ _ direct other (by rw [place] at different; exact different)
      · exact fun _ _ => rfl
    · exact Dinode.addr_set_other _ _ _ _ (by omega)
  · subst old
    have held : din.addr bn ≠ 0 := by
      have present := filed.held bn.lt_succ_self
      rw [place] at present
      exact present
    rw [if_neg held]
    exact ⟨filed, rfl, rfl⟩

include sound

theorem fill_indirect (indirect : din.addr ndirect ≠ 0 ↔ ndirect < top)
    (room : ¬ ndirect < top → image.freeblock < ndatablocks) :
    Filed image.sector (fillAddr din ndirect image).1 data top ∧
      (fillAddr din ndirect image).1.addr ndirect ≠ 0 ∧ (fillAddr din ndirect image).2.freeblock =
        image.freeblock + if ndirect < top then 0 else 1 := by
  rw [fillAddr]
  by_cases absent : din.addr ndirect = 0
  · have short : ¬ ndirect < top := fun many => indirect.mpr many absent
    have inside := room short
    have uint := dblock_uint image.freeblock inside
    have started := sound.started
    rw [if_pos absent, if_neg short]
    refine ⟨filed.add_indirect absent uint (dblock_mono late) ?_, ?_, rfl⟩
    · apply sound.owned.blank
      · rw [Nat.mod_eq_of_lt inside]
        omega
      · exact lt_irrefl _
    · simp only
      rw [Dinode.addr_set_same _ _ _ ndirect.lt_succ_self uint]
      exact dblock_ne_zero image.freeblock
  · rw [if_neg absent, if_pos (indirect.mp absent)]
    exact ⟨filed, absent, rfl⟩

theorem fill_entry_files (present : din.addr ndirect ≠ 0) (beyond : ndirect ≤ bn)
    (inFile : bn < maxfile) (near : bn = top ∨ bn + 1 = top)
    (room : image.freeblock + (bn + 1) ≤ ndatablocks + top)
    (small : image.freeblock ≤ ndatablocks) :
    ∃ x after, fillEntry (din.addr ndirect) (bn - ndirect) image = some (x, after) ∧
    Filed after.sector din data (bn + 1) ∧ x = refAt after.sector din (blockPlace bn) ∧
    after.freeblock + top = image.freeblock + (bn + 1) ∧
    Others inodes inum image.sector after.sector := by
  have mine : update inodes inum din inum = din := update_self _ _ _
  have place : blockPlace bn = .entry (bn - ndirect) := if_neg (by omega)
  have bound : bn - ndirect < nindirect := by
    simp only [maxfile] at inFile
    omega
  have readable := sound.held_on_image small inum (.addr ndirect) (by rw [mine]; exact present)
  rw [mine] at readable
  have readable : rsect (din.addr ndirect) image = some (image.sector (din.addr ndirect)) :=
    readable
  have entry : refAt image.sector din (blockPlace bn) =
      readLE (image.sector (din.addr ndirect)) (sizeofUint * (bn - ndirect)) sizeofUint := by
    rw [place, refAt, if_neg (by omega)]
  simp only [fillEntry, readable, Option.bind_eq_bind, Option.bind_some, ← entry]
  rcases near with new | old
  · subst new
    have empty : refAt image.sector din (blockPlace bn) = 0 := by
      by_contra held
      exact lt_irrefl bn ((filed.blocks bn inFile).mp held)
    have uint := dblock_uint image.freeblock (by omega)
    rw [if_pos empty]
    have added := @ref_at_with_entry image.sector _ _ _ present bound uint
    refine ⟨_, _, rfl, ?_, ?_, by simp only [wsect]; omega, ?_⟩
    · apply filed.extend inFile (dblock_mono late) (dblock_ne_zero image.freeblock)
      · rw [place]
        exact added
      · intro other different
        rw [place] at different
        exact ref_at_with_entry_other image.sector din _ _ different
      · intro other below
        have held := filed.held below
        apply update_of_ne
        have apart := sound.owned.indirect_ne (by rw [mine]; exact held)
          (.inr (block_place_data other) : inum ≠ inum ∨ _)
        rw [mine] at apart
        exact apart.symm
    · rw [place]
      exact added.symm
    · exact others_write sound.owned (.addr ndirect) _
  · subst old
    have held := filed.held bn.lt_succ_self
    rw [if_neg held]
    exact ⟨_, _, rfl, filed, rfl, rfl, Others.refl _ _ _⟩

theorem map_block_files (indirect : din.addr ndirect ≠ 0 ↔ ndirect < top) (inFile : bn < maxfile)
    (near : bn = top ∨ bn + 1 = top)
    (room : image.freeblock + needed (bn + 1) ≤ ndatablocks + needed top) :
    ∃ grown x after, mapBlock din bn image = some (grown, x, after) ∧
    Filed after.sector grown data (bn + 1) ∧ (grown.addr ndirect ≠ 0 ↔ ndirect < bn + 1) ∧
    x = refAt after.sector grown (blockPlace bn) ∧
    after.freeblock + needed top = image.freeblock + needed (bn + 1) ∧
    Others inodes inum image.sector after.sector := by
  simp only [needed] at room ⊢
  rw [mapBlock]
  by_cases direct : bn < ndirect
  · rw [if_neg (by omega : ¬ ndirect < bn + 1), if_neg (by omega : ¬ ndirect < top)] at *
    obtain ⟨grownFiled, same, count⟩ := fill_direct late filed direct near room
    have sector := fill_addr_sector din bn image
    rw [if_pos direct]
    refine ⟨(fillAddr din bn image).1, (fillAddr din bn image).1.addr bn,
      (fillAddr din bn image).2, rfl, ?_, ?_, ?_, count, ?_⟩
    · rw [sector]
      exact grownFiled
    · rw [same, indirect]
      omega
    · rw [blockPlace, if_pos direct]
      rfl
    · rw [sector]
      exact Others.refl _ _ _
  · rw [if_pos (by omega : ndirect < bn + 1)] at *
    rcases fill_indirect sound late filed indirect (by
      intro short
      rw [if_neg short] at room
      omega) with ⟨middleFiled, present, count⟩
    have sector := fill_addr_sector din ndirect image
    have filled := fill_addr_filled inodes inum image din ndirect ndirect.lt_succ_self
    rw [if_neg direct]
    generalize fillAddr din ndirect image = middle at *
    obtain ⟨partway, middle⟩ := middle
    simp only at sector middleFiled present count filled ⊢
    have more : middle.freeblock + (bn + 1) ≤ ndatablocks + top ∧
        middle.freeblock ≤ ndatablocks := by
      by_cases many : ndirect < top
      · rw [if_pos many] at count room
        omega
      · rw [if_neg many] at count room
        omega
    rw [← sector] at middleFiled
    rcases fill_entry_files (filled.sound more.2 sound) (late.trans filled.freeblock)
      middleFiled present (Nat.le_of_not_lt direct) inFile near more.1 more.2 with
      ⟨x, after, done, afterFiled, found, total, others⟩
    rw [sector] at others
    refine ⟨partway, x, after, ?_, afterFiled, ?_, found, ?_, others⟩
    · simp only [done, Option.bind_eq_bind, Option.bind_some]
    · exact ⟨fun _ => by omega, fun _ => present⟩
    · by_cases many : ndirect < top
      · rw [if_pos many] at count ⊢
        omega
      · rw [if_neg many] at count ⊢
        omega

end Mapping

theorem blocks_for_mono {small large : Nat} (le : small ≤ large) :
    blocksFor small ≤ blocksFor large := by
  simp only [blocksFor, bsize]
  omega

theorem needed_mono {small large : Nat} (le : small ≤ large) : needed small ≤ needed large := by
  simp only [needed]
  split <;> split <;> omega

theorem block_at_end (length : Nat) :
    length / bsize = blocksFor length ∨ length / bsize + 1 = blocksFor length := by
  simp only [blocksFor, bsize]
  omega

theorem blocks_for_piece {length piece : Nat} (nonempty : 0 < piece)
    (inside : length + piece ≤ (length / bsize + 1) * bsize) :
    blocksFor (length + piece) = length / bsize + 1 := by
  simp only [blocksFor, bsize] at inside ⊢
  omega

theorem last_block_in_file {length : Nat} (fits : length < maxfile * bsize) :
    length / bsize < maxfile := by
  apply Nat.div_lt_of_lt_mul
  rw [Nat.mul_comm]
  exact fits

/-- The state of the loop of `iappend`: the file has the blocks of `data`, and everything
else is in order. -/
structure Appending (inodes : Nat → Dinode) (inum : Nat) (image : Image) (din : Dinode)
    (data : List Byte) : Prop where
  sound : Sound image (update inodes inum din)
  late : nmeta blockgroups ≤ image.freeblock
  filed : Filed image.sector din data (blocksFor data.length)
  indirect : din.addr ndirect ≠ 0 ↔ ndirect < blocksFor data.length

theorem append_round {din : Dinode} {data : List Byte}
    (state : Appending inodes inum image din data) (piece : List Byte) (nonempty : piece ≠ [])
    (inFile : data.length / bsize < maxfile)
    (inside : data.length + piece.length ≤ (data.length / bsize + 1) * bsize)
    (room : image.freeblock + needed (blocksFor (data.length + piece.length)) ≤
    ndatablocks + needed (blocksFor data.length)) :
    ∃ grown x middle, mapBlock din (data.length / bsize) image = some (grown, x, middle) ∧
    rsect x middle = some (middle.sector x) ∧
    Appending inodes inum (wsect x (copyInto (middle.sector x)
    (data.length - data.length / bsize * bsize) piece) middle) grown (data ++ piece) ∧
    middle.freeblock + needed (blocksFor data.length) =
    image.freeblock + needed (blocksFor (data.length + piece.length)) ∧
    Others inodes inum image.sector (wsect x (copyInto (middle.sector x)
    (data.length - data.length / bsize * bsize) piece) middle).sector := by
  have last := blocks_for_piece (List.length_pos_iff.mpr nonempty) inside
  rw [last] at room ⊢
  rcases map_block_files state.sound state.late state.filed state.indirect inFile
    (block_at_end data.length) room with
    ⟨grown, x, middle, mapped, filed, indirect, found, count, others⟩
  obtain ⟨filled, -⟩ := map_block_filled inodes inum image middle din grown _ x inFile mapped
  have small : middle.freeblock ≤ ndatablocks := by omega
  have sound := filled.sound small state.sound
  have mine : update inodes inum grown inum = grown := update_self _ _ _
  have held : x ≠ 0 := by
    rw [found]
    exact filed.held (Nat.lt_succ_self _)
  have readable := sound.held_on_image small inum (blockPlace (data.length / bsize))
    (by rw [mine, ← found]; exact held)
  rw [mine, ← found] at readable
  have stored := (store_filled inodes inum middle grown (data.length / bsize) x
    (copyInto (middle.sector x) (data.length - data.length / bsize * bsize) piece)
    (rsect_eq _ _ _ readable).1 (fun _ => ⟨found.symm, held⟩)).sound small sound
  refine ⟨grown, x, middle, mapped, readable, ⟨stored, ?_, ?_, ?_⟩, count, ?_⟩
  · exact Nat.le_trans state.late filled.freeblock
  · rw [List.length_append, last]
    subst found
    apply filed.store (Nat.div_mul_le_self _ _) inside
    · intro place
      apply ref_at_congr _ _ _ _ rfl
      intro _
      apply update_of_ne
      have apart := sound.owned.indirect_ne (by rw [mine]; exact held)
        (.inr (block_place_data _) : inum ≠ inum ∨ _)
      rw [mine] at apart
      exact apart
    · intro other below same
      have clash := sound.owned.distinct inum (blockPlace other) inum
        (blockPlace (data.length / bsize)) (by rw [mine]; exact filed.held (by omega))
        (by rw [mine]; exact same)
      have equal := block_place_injective clash.2
      omega
  · rw [List.length_append, last]
    exact indirect
  · apply others.trans
    subst found
    exact others_write sound.owned _ _

/-- The loop of `iappend` appends, and takes exactly the blocks the file lacks. -/
theorem append_loop_files {inodes : Nat → Dinode} {inum : Nat} {image : Image} {din : Dinode}
    {data : List Byte} (state : Appending inodes inum image din data) (p : List Byte)
    (fits : data.length + p.length ≤ maxfile * bsize)
    (room : image.freeblock + needed (blocksFor (data.length + p.length)) ≤
    ndatablocks + needed (blocksFor data.length)) :
    ∃ grown after, appendLoop din data.length p image =
    some (grown, data.length + p.length, after) ∧ Appending inodes inum after grown (data ++ p) ∧
    after.freeblock + needed (blocksFor data.length) =
    image.freeblock + needed (blocksFor (data.length + p.length)) ∧
    Others inodes inum image.sector after.sector := by
  by_cases empty : p = []
  · subst empty
    rw [appendLoop, if_pos rfl, List.append_nil]
    exact ⟨din, image, rfl, state, rfl, Others.refl _ _ _⟩
  · have nonempty := List.length_pos_iff.mpr empty
    have inBlock := block_has_room data.length
    have inFile := last_block_in_file (by omega : data.length < maxfile * bsize)
    have size : (p.take (min p.length ((data.length / bsize + 1) * bsize - data.length))).length =
        min p.length ((data.length / bsize + 1) * bsize - data.length) := by
      rw [List.length_take]
      omega
    have rest : (p.drop (min p.length ((data.length / bsize + 1) * bsize - data.length))).length =
        p.length - min p.length ((data.length / bsize + 1) * bsize - data.length) :=
      List.length_drop
    have split := List.take_append_drop
      (min p.length ((data.length / bsize + 1) * bsize - data.length)) p
    generalize amount : min p.length ((data.length / bsize + 1) * bsize - data.length) = n1 at *
    have partly := needed_mono (blocks_for_mono
      (by omega : data.length + n1 ≤ data.length + p.length))
    rcases append_round state (p.take n1)
      (List.length_pos_iff.mp (by omega)) inFile (by omega) (by rw [size]; omega) with
      ⟨partway, x, middle, mapped, readable, next, count, others⟩
    rw [size] at count
    have total : (data ++ p.take n1).length + (p.drop n1).length = data.length + p.length := by
      rw [List.length_append]
      omega
    have counted : (data ++ p.take n1).length = data.length + n1 := by
      rw [List.length_append, size]
    rcases append_loop_files next (p.drop n1) (by omega)
      (by rw [total, counted]; simp only [wsect]; omega) with
      ⟨grown, after, looped, final, taken, further⟩
    rw [total, counted] at looped taken
    rw [List.append_assoc, split] at final
    refine ⟨grown, after, ?_, final, ?_, others.trans further⟩
    · rw [appendLoop, if_neg empty]
      simp only [Option.bind_eq_bind, guard, inFile, ↓reduceIte, Option.pure_def,
        Option.bind_some, mapped, readable, amount]
      exact looped
    · simp only [wsect] at taken
      omega
termination_by p.length
decreasing_by
  omega

/-- Every file of the image holds what `files` says, and `freeblock` counts the blocks. -/
structure Contents (image : Image) (files : Nat → List Byte) : Prop where
  sound : Sound image (view image)
  size : ∀ inum, (view image inum).size.toNat = (files inum).length
  filed : ∀ inum, Filed image.sector (view image inum) (files inum)
    (blocksFor (files inum).length)
  indirect : ∀ inum, (view image inum).addr ndirect ≠ 0 ↔
    ndirect < blocksFor (files inum).length
  count : image.freeblock = nmeta blockgroups +
    ∑ inum ∈ Finset.range image.freeinode, needed (blocksFor (files inum).length)
  unwritten : ∀ inum, image.freeinode ≤ inum → image.written inum = none

theorem Contents.late (contents : Contents image files) : nmeta blockgroups ≤ image.freeblock := by
  rw [contents.count]
  exact Nat.le_add_right _ _

theorem winode_same_file {after : Image} (sound : Sound image inodes)
    (written : winode inum d image = some after) (other : Nat) (changed : Dinode)
    (addrs : changed.addrs = (inodes other).addrs) :
    SameFile image.sector (inodes other) after.sector changed := by
  simp only [winode, Option.bind_eq_bind, Option.bind_eq_some_iff, Option.some.injEq] at written
  obtain ⟨buf, -, rfl⟩ := written
  have apart (place : Place) (held : refAt image.sector (inodes other) place ≠ 0) :
      refAt image.sector (inodes other) place ≠ iblock inum sb := by
    obtain ⟨v, valid, -, located⟩ := sound.owned.mapped other place held
    rw [located, iblock_inode_block]
    exact dblock_ne_inode_block v _ _ (by omega) valid
  constructor
  · intro place
    apply ref_at_congr _ _ _ _ addrs
    intro present
    exact update_of_ne (apart (.addr ndirect) present) _ _
  · intro bn held
    exact update_of_ne (apart (blockPlace bn) held) _ _

theorem ialloc_contents (contents : Contents image files) (type : BitVec 16)
    (group : image.freeinode / 29 < blockgroups) :
    ∃ after, ialloc type image = some (image.freeinode, after) ∧ Contents after files ∧
    after.freeinode = image.freeinode + 1 := by
  have unseen : view image image.freeinode = Dinode.blank := by
    rw [view, contents.unwritten _ le_rfl]
    rfl
  have none : (files image.freeinode).length = 0 := by
    rw [← contents.size, unseen]
    rfl
  have counted : Sound { image with freeinode := image.freeinode + 1 } (view image) :=
    ⟨contents.sound.length, contents.sound.super, contents.sound.slots, contents.sound.started,
      contents.sound.owned⟩
  obtain ⟨after, written⟩ := winode_succeeds counted image.freeinode (newInode type) group
  have allocated : ialloc type image = some (image.freeinode, after) := by
    simp only [ialloc, written, Option.bind_eq_bind, Option.bind_some]
  obtain ⟨-, freeinode, freeblock, record, sound⟩ := ialloc_allocated allocated
  have seen := view_written record
  have addrs (other : Nat) : (view after other).addrs = (view image other).addrs := by
    rw [seen]
    by_cases here : other = image.freeinode
    · rw [here, update_self, unseen]
      rfl
    · rw [update_of_ne here]
  refine ⟨after, allocated, ⟨?_, ?_, ?_, ?_, ?_, ?_⟩, freeinode⟩
  · exact (sound contents.sound (contents.unwritten _ le_rfl)).1
  · intro other
    rw [seen]
    by_cases here : other = image.freeinode
    · rw [here, update_self, none]
      rfl
    · rw [update_of_ne here]
      exact contents.size other
  · intro other
    exact (contents.filed other).congr (winode_same_file counted written other _ (addrs other))
  · intro other
    rw [Dinode.addr, addrs other]
    exact contents.indirect other
  · have nothing : needed (blocksFor (files image.freeinode).length) = 0 := by
      rw [none]
      decide
    rw [freeblock, freeinode, Finset.sum_range_succ, nothing]
    exact contents.count
  · intro other beyond
    rw [record, update_of_ne (by omega)]
    exact contents.unwritten other (by omega)

theorem sum_update_of_lt (files : Nat → List Byte) (f : List Byte → Nat) {bound : Nat}
    (inside : inum < bound) (data : List Byte) :
    ∑ other ∈ Finset.range bound, f (update files inum data other) + f (files inum) =
    ∑ other ∈ Finset.range bound, f (files other) + f data := by
  have mem := Finset.mem_range.mpr inside
  rw [← Finset.sum_erase_add _ _ mem, ← Finset.sum_erase_add (Finset.range bound) _ mem,
    update_self, Nat.add_right_comm]
  congr 2
  apply Finset.sum_congr rfl
  intro other elsewhere
  rw [update_of_ne (Finset.ne_of_mem_erase elsewhere)]

theorem iappend_contents (contents : Contents image files) (p : List Byte)
    (allocated : inum < image.freeinode) (group : inum / 29 < blockgroups)
    (fits : (files inum).length + p.length ≤ maxfile * bsize)
    (room : image.freeblock + needed (blocksFor ((files inum).length + p.length)) ≤
    ndatablocks + needed (blocksFor (files inum).length)) :
    ∃ after, iappend inum p image = some after ∧
    Contents after (update files inum (files inum ++ p)) ∧ after.freeinode = image.freeinode := by
  have read : rinode inum image = some (view image inum) := by
    rcases Option.eq_none_or_eq_some (rinode inum image) with unread | ⟨din, read⟩
    · simp [rinode, iblock_readable contents.sound inum group] at unread
    · rw [read, (rinode_view contents.sound read).1]
  have start : Appending (view image) inum image (view image inum) (files inum) := by
    refine ⟨?_, contents.late, contents.filed inum, contents.indirect inum⟩
    rw [update_eq_self]
    exact contents.sound
  obtain ⟨grown, middle, looped, state, count, others⟩ := append_loop_files start p fits room
  obtain ⟨filled, -⟩ := append_loop_filled (view image) inum _ _ p image grown _ middle looped
  have middleView : view middle = view image := by
    funext other
    simp only [view, filled.written]
  rcases winode_succeeds state.sound inum
    { grown with size := BitVec.ofNat 32 ((files inum).length + p.length) } group with
    ⟨after, written⟩
  obtain ⟨record, freeinode, freeblock⟩ := winode_counters written
  have known : Sound middle (update (view middle) inum grown) := by
    rw [middleView]
    exact state.sound
  have seen := view_written record
  rw [middleView] at seen
  have limit : maxfile * bsize = 71680 := by decide
  have elsewhere {other : Nat} (different : other ≠ inum) :
      SameFile image.sector (view image other) after.sector (view after other) := by
    rw [seen, update_of_ne different]
    have later := winode_same_file state.sound written other (view image other)
      (by rw [update_of_ne different])
    rw [update_of_ne different] at later
    exact (others other different).trans later
  refine ⟨after, ?_, ⟨?_, ?_, ?_, ?_, ?_, ?_⟩, by rw [freeinode, filled.freeinode]⟩
  · simp only [iappend, read, contents.size inum, looped, written, Option.bind_eq_bind,
      Option.bind_some]
  · have addrs : ({ grown with size := BitVec.ofNat 32 ((files inum).length + p.length) } :
        Dinode).addrs = grown.addrs := rfl
    exact (winode_keeps known addrs written).1
  · intro other
    by_cases here : other = inum
    · rw [seen, here, update_self, update_self, List.length_append, BitVec.toNat_ofNat]
      apply Nat.mod_eq_of_lt
      omega
    · rw [seen, update_of_ne here, update_of_ne here]
      exact contents.size other
  · intro other
    by_cases here : other = inum
    · rw [here, update_self]
      have same := winode_same_file state.sound written inum (view after inum)
        (by rw [seen, update_self, update_self])
      rw [update_self] at same
      exact state.filed.congr same
    · rw [update_of_ne here]
      exact (contents.filed other).congr (elsewhere here)
  · intro other
    by_cases here : other = inum
    · rw [seen, here, update_self, update_self]
      exact state.indirect
    · rw [seen, update_of_ne here, update_of_ne here]
      exact contents.indirect other
  · have total := sum_update_of_lt files (fun data => needed (blocksFor data.length)) allocated
      (files inum ++ p)
    simp only [List.length_append] at total
    have before := contents.count
    rw [freeblock, freeinode, filled.freeinode]
    omega
  · intro other beyond
    rw [freeinode, filled.freeinode] at beyond
    rw [record, update_of_ne (by omega), filled.written]
    exact contents.unwritten other beyond

theorem blank_image_contents : Contents blankImage fun _ => [] where
  sound := blank_image_sound
  size := fun _ => rfl
  filed := fun _ => filed_blank _
  indirect := by
    intro inum
    have unseen : view blankImage inum = Dinode.blank := rfl
    rw [unseen, Dinode.blank_addr]
    decide
  count := by decide
  unwritten := fun _ _ => rfl

inductive Call where
  | ialloc (type : BitVec 16)
  | iappend (inum : Nat) (data : List Byte)

def Call.run (image : Image) : Call → Option Image
  | .ialloc type => do
    let (_, image) ← Mkfs.ialloc type image
    some image
  | .iappend inum data => Mkfs.iappend inum data image

def Call.data (inum : Nat) : Call → List Byte
  | .ialloc _ => []
  | .iappend other data => if other = inum then data else []

def appended (calls : List Call) (inum : Nat) : List Byte := calls.flatMap (Call.data inum)

def allocations : List Call → Nat
  | [] => 0
  | .ialloc _ :: rest => allocations rest + 1
  | .iappend _ _ :: rest => allocations rest

/-- Appends go to inodes that have been allocated; `next` is the next inode number. -/
def Addressed : Nat → List Call → Prop
  | _, [] => True
  | next, .ialloc _ :: rest => Addressed (next + 1) rest
  | next, .iappend inum _ :: rest => (0 < inum ∧ inum < next) ∧ Addressed next rest

def finalFreeblock (calls : List Call) : Nat :=
  nmeta blockgroups +
    ∑ inum ∈ Finset.range (allocations calls + 1), needed (blocksFor (appended calls inum).length)

def build (calls : List Call) : Option Image := do
  let image ← calls.foldlM Call.run blankImage
  balloc image.freeblock image

theorem Addressed.iappend {next : Nat} {data : List Byte} {rest : List Call}
    (addressed : Addressed next (.iappend inum data :: rest)) : inum < next := addressed.1.2

theorem group_exists (small : inum < sb.ninodes) : inum / 29 < blockgroups := by
  have total : sb.ninodes = 725 := by decide
  rw [blockgroups]
  omega

theorem files_so_far_le {final : Nat → List Byte} {bound total : Nat} (le : bound ≤ total)
    (shorter : ∀ inum, (files inum).length ≤ (final inum).length) :
    ∑ inum ∈ Finset.range bound, needed (blocksFor (files inum).length) ≤
    ∑ inum ∈ Finset.range total, needed (blocksFor (final inum).length) := by
  calc ∑ inum ∈ Finset.range bound, needed (blocksFor (files inum).length)
      ≤ ∑ inum ∈ Finset.range bound, needed (blocksFor (final inum).length) :=
        Finset.sum_le_sum fun inum _ => needed_mono (blocks_for_mono (shorter inum))
    _ ≤ ∑ inum ∈ Finset.range total, needed (blocksFor (final inum).length) :=
        Finset.sum_le_sum_of_subset (Finset.range_mono le)

theorem calls_contents (calls : List Call) (contents : Contents image files)
    (addressed : Addressed image.freeinode calls)
    (few : image.freeinode + allocations calls ≤ sb.ninodes)
    (fits : ∀ inum, (files inum ++ appended calls inum).length ≤ maxfile * bsize)
    (room : nmeta blockgroups + ∑ inum ∈ Finset.range (image.freeinode + allocations calls),
    needed (blocksFor (files inum ++ appended calls inum).length) ≤ ndatablocks) :
    ∃ after, calls.foldlM Call.run image = some after ∧
    Contents after (fun inum => files inum ++ appended calls inum) ∧
    after.freeinode = image.freeinode + allocations calls := by
  induction calls generalizing image files with
  | nil =>
    refine ⟨image, rfl, ?_, rfl⟩
    simp only [appended, List.flatMap_nil, List.append_nil]
    exact contents
  | cons call rest ih =>
    cases call with
    | ialloc type =>
      have same (inum : Nat) : appended (.ialloc type :: rest) inum = appended rest inum := rfl
      have more : allocations (.ialloc type :: rest) = allocations rest + 1 := rfl
      simp only [same, more] at fits room few ⊢
      obtain ⟨middle, allocated, next, counted⟩ :=
        ialloc_contents contents type (group_exists (by omega))
      have total : image.freeinode + (allocations rest + 1) =
          middle.freeinode + allocations rest := by omega
      rw [total] at room few ⊢
      obtain ⟨after, done, final, number⟩ :=
        ih next (by rw [counted]; exact addressed) few fits room
      refine ⟨after, ?_, final, number⟩
      simp only [List.foldlM_cons, Call.run, allocated, Option.bind_eq_bind, Option.bind_some]
      exact done
    | iappend inum data =>
      have more : allocations (.iappend inum data :: rest) = allocations rest := rfl
      have allocated := addressed.iappend
      have split : (fun other => files other ++ appended (.iappend inum data :: rest) other) =
          fun other => update files inum (files inum ++ data) other ++
            appended rest other := by
        funext other
        simp only [appended, List.flatMap_cons, Call.data]
        by_cases here : other = inum
        · rw [here, if_pos rfl, update_self, List.append_assoc]
        · rw [if_neg (Ne.symm here), update_of_ne here, List.nil_append]
      have lengths (other : Nat) := congrArg List.length (congrFun split other)
      simp only [lengths, more, split] at fits room few ⊢
      have soFar := @files_so_far_le (update files inum (files inum ++ data))
        (fun other => update files inum (files inum ++ data) other ++
          appended rest other)
        image.freeinode (image.freeinode + allocations rest) (Nat.le_add_right _ _)
        (fun other => by rw [List.length_append]; exact Nat.le_add_right _ _)
      have exchange := sum_update_of_lt files (fun content => needed (blocksFor content.length))
        allocated (files inum ++ data)
      have short := fits inum
      rw [update_self, List.length_append, List.length_append] at short
      simp only [List.length_append] at soFar room exchange
      have count := contents.count
      rcases iappend_contents contents data allocated (group_exists (by omega)) (by omega)
        (by omega) with ⟨middle, done, next, counted⟩
      rw [← counted] at room few ⊢
      rcases ih next (by rw [counted]; exact addressed.2) few fits
        (by simp only [List.length_append]; exact room) with ⟨after, finished, final, number⟩
      refine ⟨after, ?_, final, number⟩
      simp only [List.foldlM_cons, Call.run, done, Option.bind_eq_bind, Option.bind_some]
      exact finished

theorem bitmap_same_file (sound : Sound image inodes) (content : Buffer) (inum : Nat) :
    SameFile image.sector (inodes inum) (wsect sb.bgstart content image).sector (inodes inum) := by
  have apart (place : Place) (held : refAt image.sector (inodes inum) place ≠ 0) :
      refAt image.sector (inodes inum) place ≠ sb.bgstart := by
    obtain ⟨v, -, -, located⟩ := sound.owned.mapped inum place held
    have start : sb.bgstart = 32 := rfl
    rw [located, dblock_eq, start]
    omega
  constructor
  · intro place
    apply ref_at_congr _ _ _ _ rfl
    intro present
    exact update_of_ne (apart (.addr ndirect) present) _ _
  · intro bn held
    exact update_of_ne (apart (blockPlace bn) held) _ _

theorem Contents.balloc {after : Image} {used : Nat} (contents : Contents image files)
    (marked : Mkfs.balloc used image = some after) : Contents after files := by
  obtain ⟨-, rfl⟩ := balloc_eq marked
  exact ⟨write_bitmap_sound contents.sound _, contents.size,
    fun inum => (contents.filed inum).congr (bitmap_same_file contents.sound _ inum),
    contents.indirect, contents.count, contents.unwritten⟩

theorem Filed.file_bytes {data : List Byte} (filed : Filed disk d data top)
    (size : d.size.toNat = data.length) : fileBytes disk d = data := by
  apply List.ext_getElem
  · rw [fileBytes, List.length_map, List.length_range, size]
  · intro i _ inside
    have byte := filed.bytes i inside
    rw [List.getD_eq_getElem _ _ inside] at byte
    simp only [fileBytes, List.getElem_map, List.getElem_range]
    exact byte

structure Consistent (calls : List Call) (image : Image) : Prop where
  read : ∀ inum, 0 < inum → inum ≤ allocations calls → ∃ d, rinode inum image = some d ∧
    d.size.toNat = (appended calls inum).length ∧
    (∀ bn, bn < blocksFor d.size.toNat → refAt image.sector d (blockPlace bn) ≠ 0) ∧
    fileBytes image.sector d = appended calls inum
  blocks : ∀ inum d place, rinode inum image = some d → refAt image.sector d place ≠ 0 →
    ∃ v, nmeta blockgroups ≤ v ∧ v < image.freeblock ∧ refAt image.sector d place = dblock v sb
  distinct : ∀ inum d place other e elsewhere, rinode inum image = some d →
    rinode other image = some e → refAt image.sector d place ≠ 0 →
    refAt image.sector d place = refAt image.sector e elsewhere →
      inum = other ∧ place = elsewhere
  bitmap : ∀ bit, bitSet (image.sector sb.bgstart) bit = decide (bit < image.freeblock)

theorem Contents.consistent {calls : List Call} (contents : Contents image (appended calls))
    (few : allocations calls < sb.ninodes)
    (marked : image.sector sb.bgstart = bitmap image.freeblock) : Consistent calls image where
  read := by
    intro inum _ allocated
    have group := group_exists (allocated.trans_lt few)
    have found : rinode inum image = some (view image inum) := by
      rcases Option.eq_none_or_eq_some (rinode inum image) with unread | ⟨din, read⟩
      · simp [rinode, iblock_readable contents.sound inum group] at unread
      · rw [read, (rinode_view contents.sound read).1]
    have filed := contents.filed inum
    have size := contents.size inum
    refine ⟨view image inum, found, size, ?_, filed.file_bytes size⟩
    intro bn below
    rw [size] at below
    exact filed.held below
  blocks := by
    intro inum d place found held
    obtain ⟨rfl, -⟩ := rinode_view contents.sound found
    obtain ⟨v, -, used, located⟩ := contents.sound.owned.mapped inum place held
    have late := (contents.filed inum).late place held
    rw [located] at late
    refine ⟨v, ?_, used, located⟩
    have value : bpb = 4060 := ndatablocks_value
    have first : nmeta blockgroups = 157 := by decide
    rw [dblock_eq, dblock_eq, first] at late
    rw [first]
    omega
  distinct := by
    intro inum d place other e elsewhere found foundOther held same
    obtain ⟨rfl, -⟩ := rinode_view contents.sound found
    obtain ⟨rfl, -⟩ := rinode_view contents.sound foundOther
    exact contents.sound.owned.distinct inum place other elsewhere held same
  bitmap := by
    intro bit
    rw [marked]
    exact bitmap_bit _ _

/-- The calls build an image whose files are what was appended to them, on blocks of their
own that the bitmap records. -/
theorem build_consistent (calls : List Call) (addressed : Addressed 1 calls)
    (few : allocations calls ≤ sb.ninodes - 1)
    (fits : ∀ inum, (appended calls inum).length ≤ maxfile * bsize)
    (room : finalFreeblock calls < bpb) :
    ∃ image, build calls = some image ∧ image.freeblock = finalFreeblock calls ∧
      Consistent calls image := by
  have total : sb.ninodes = 725 := by decide
  have start : blankImage.freeinode = 1 := rfl
  have turned : 1 + allocations calls = allocations calls + 1 := Nat.add_comm _ _
  rcases calls_contents calls blank_image_contents addressed (by rw [start]; omega)
    (by simpa using fits) (by
      simp only [start, turned, List.nil_append]
      exact room.le) with ⟨image, done, contents, number⟩
  simp only [List.nil_append] at contents
  have count : image.freeblock = finalFreeblock calls := by
    rw [contents.count, number, start, turned]
    rfl
  rw [← count] at room
  have marked : Mkfs.balloc image.freeblock image =
      some (wsect sb.bgstart (bitmap image.freeblock) image) := if_pos room
  refine ⟨wsect sb.bgstart (bitmap image.freeblock) image, ?_, count,
    (contents.balloc marked).consistent (by omega) ?_⟩
  · simp only [build, done, Option.bind_eq_bind, Option.bind_some]
    exact marked
  · simp only [wsect]
    rw [update_self]

def sampleCalls : List Call :=
  [.ialloc tDir, .ialloc tFile, .iappend 2 [1, 2], .iappend 1 [3], .iappend 2 [4]]

theorem sample_calls_consistent :
    Addressed 1 sampleCalls ∧ ∃ image, build sampleCalls = some image ∧
      image.freeblock = 159 ∧ Consistent sampleCalls image := by
  have addressed : Addressed 1 sampleCalls := by
    simp only [sampleCalls, Addressed]
    decide
  have total : finalFreeblock sampleCalls = 159 := by decide
  have fits (inum : Nat) : (appended sampleCalls inum).length ≤ maxfile * bsize := by
    have limit : maxfile * bsize = 71680 := by decide
    simp only [sampleCalls, appended, List.flatMap_cons, List.flatMap_nil, Call.data,
      List.length_append, limit]
    split <;> split <;> simp
  obtain ⟨image, built, count, consistent⟩ :=
    build_consistent sampleCalls addressed (by decide) fits (by rw [total]; decide)
  exact ⟨addressed, image, built, count.trans total, consistent⟩

end Xv6Hacks.ImageContents
