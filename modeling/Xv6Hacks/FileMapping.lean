import Xv6Hacks.FileBlocks

/-!
# Mapping the blocks of a file

`bmap` may allocate the block it is asked for and an indirect block on the way. Blocks
are handed out blank, and a hole reads as zeros, so mapping a block changes no byte of
any file.
-/

namespace Xv6Hacks.FileMapping

open BlockOwnership ByteBuffers ClassicFs FileBlocks Function Outcomes WriteSequences
open BlockGroupLayout (bsize maxfile ndirect nindirect sizeofUint)
open DiskFormat (Dinode blankBlock)

/-- Byte `i` of the blocks of an inode, whatever its size; holes have zeros. -/
def fileByte (disk : Store Buffer) (d : Dinode) (i : Nat) : Byte :=
  let block := refAt disk d (blockPlace (i / bsize))
  if block = 0 then 0 else disk block (i % bsize)

theorem file_byte_congr {disk disk' : Store Buffer} {d d' : Dinode} {i : Nat}
    (sameRef : refAt disk' d' (blockPlace (i / bsize)) = refAt disk d (blockPlace (i / bsize)))
    (sameBlock : refAt disk d (blockPlace (i / bsize)) ≠ 0 →
    disk' (refAt disk d (blockPlace (i / bsize))) = disk (refAt disk d (blockPlace (i / bsize)))) :
    fileByte disk' d' i = fileByte disk d i := by
  unfold fileByte
  simp only [sameRef]
  by_cases hole : refAt disk d (blockPlace (i / bsize)) = 0
  · rw [if_pos hole, if_pos hole]
  · rw [if_neg hole, if_neg hole, sameBlock hole]

theorem file_byte_filled {disk disk' : Store Buffer} {d d' : Dinode} {i b : Nat}
    (hole : refAt disk d (blockPlace (i / bsize)) = 0)
    (filled : refAt disk' d' (blockPlace (i / bsize)) = b) (blank : disk' b = blankBlock) :
    fileByte disk' d' i = fileByte disk d i := by
  unfold fileByte
  simp only [hole, filled, blank, ↓reduceIte]
  split
  · rfl
  · rfl

def SameBytes (disk : Store Buffer) (ins : Nat → Dinode) (disk' : Store Buffer)
    (ins' : Nat → Dinode) : Prop :=
  ∀ inum i, fileByte disk' (ins' inum) i = fileByte disk (ins inum) i

section Bytes
variable {fs fs' : Fs} {ins : Nat → Dinode} {loose : List Nat}

theorem Held.same_bytes (held : Held fs ins loose)
    (same : ∀ block, IsData fs.sb block → marked fs block = true →
    fs'.disk block = fs.disk block) : SameBytes fs.disk ins fs'.disk ins := by
  intro inum i
  apply file_byte_congr (held.same_refs fs' same inum _)
  intro present
  obtain ⟨data, mark⟩ := held.used inum _ present
  exact same _ data mark

theorem Took.same_bytes {b : Nat} (took : Took fs b fs') (held : Held fs ins loose) :
    SameBytes fs.disk ins fs'.disk ins := by
  apply Held.same_bytes held
  intro block data mark
  apply took.others block (data_not_bitmap data)
  intro same
  rw [same, took.fresh] at mark
  contradiction

theorem Gave.same_bytes {b : Nat} (gave : Gave fs b fs') (held : Held fs ins loose) :
    SameBytes fs.disk ins fs'.disk ins :=
  Held.same_bytes held fun block data _ => gave.others block (data_not_bitmap data)

theorem attach_addr_bytes {b inum index : Nat} (held : Held fs ins (b :: loose))
    (bound : index < ndirect + 1) (absent : (ins inum).addr index = 0)
    (blank : fs.disk b = blankBlock) :
    SameBytes fs.disk ins fs.disk (update ins inum ((ins inum).setAddr index b)) := by
  have uint := loose_uint held (.head _)
  intro other i
  by_cases same : other = inum
  · subst same
    rw [update_self]
    by_cases here : blockPlace (i / bsize) = .addr index
    · refine file_byte_filled ?_ ?_ blank
      · rw [here]
        exact absent
      · rw [here]
        exact Dinode.addr_set_same _ index b bound uint
    · exact file_byte_congr (ref_at_set_addr fs.disk _ bound uint absent blank here)
        fun _ => rfl
  · rw [update_of_ne same]

theorem attach_entry_bytes {b inum index : Nat} (held : Held fs ins (b :: loose))
    (bound : index < nindirect) (present : (ins inum).addr ndirect ≠ 0)
    (empty : refAt fs.disk (ins inum) (.entry index) = 0) (blank : fs.disk b = blankBlock) :
    SameBytes fs.disk ins (logWrite fs ((ins inum).addr ndirect)
    (writeLE (fs.disk ((ins inum).addr ndirect)) (sizeofUint * index) sizeofUint b)).disk ins := by
  have uint := loose_uint held (.head _)
  intro other i
  by_cases here : other = inum ∧ blockPlace (i / bsize) = .entry index
  · obtain ⟨rfl, place⟩ := here
    refine file_byte_filled (by rw [place]; exact empty) (b := b) ?_ ?_
    · rw [place]
      simp only [refAt, logWrite]
      rw [if_neg (by omega), update_self, read_le_write_same]
      exact Nat.mod_eq_of_lt uint
    · refine (update_of_ne ?_ _ _).trans blank
      exact (held.looseApart b (.head _) other (.addr ndirect)).symm
  · apply file_byte_congr (ref_at_write_entry held b present other (by tauto))
    intro held'
    exact update_of_ne (held.indirect_ne _ held' (.inr (block_place_data _))).symm _ _

end Bytes

structure Extended (ins : Nat → Dinode) (fs : Fs) (ip : Inode) (fs' : Fs) (ip' : Inode) :
    Prop where
  held : Held fs' (update ins ip.inum ip'.din) []
  inum : ip'.inum = ip.inum
  fields : ip'.din = { ip.din with addrs := ip'.din.addrs }
  sb : fs'.sb = fs.sb
  inodeBlocks : ∀ block, block < fs.sb.bmapstart → fs'.disk block = fs.disk block
  kept : ∀ place, refAt fs.disk ip.din place ≠ 0 → refAt fs'.disk ip'.din place ≠ 0
  elsewhere : ∀ inum place, inum ≠ ip.inum →
    refAt fs'.disk (ins inum) place = refAt fs.disk (ins inum) place

/-- And every file has the bytes it had. -/
structure Grown (ins : Nat → Dinode) (fs : Fs) (ip : Inode) (fs' : Fs) (ip' : Inode) : Prop
    extends Extended ins fs ip fs' ip' where
  bytes : SameBytes fs.disk ins fs'.disk (update ins ip.inum ip'.din)

section Mapping
variable {ins : Nat → Dinode} {fs fs' fs'' : Fs} {ip ip' ip'' : Inode}

theorem update_own (isIp : ins ip.inum = ip.din) : update ins ip.inum ip.din = ins := by
  rw [← isIp]
  exact update_eq_self _ _

theorem Extended.refl (held : Held fs ins []) (isIp : ins ip.inum = ip.din) :
    Extended ins fs ip fs ip := by
  refine ⟨?_, rfl, rfl, rfl, fun _ _ => rfl, fun _ present => present, fun _ _ _ => rfl⟩
  rw [update_own isIp]
  exact held

theorem Extended.update_twice (first : Extended ins fs ip fs' ip') (d : Dinode) :
    update (update ins ip.inum ip'.din) ip'.inum d = update ins ip.inum d := by
  rw [first.inum]
  exact update_idem _ _ _

theorem Extended.trans (first : Extended ins fs ip fs' ip')
    (second : Extended (update ins ip.inum ip'.din) fs' ip' fs'' ip'') :
    Extended ins fs ip fs'' ip'' := by
  have held := second.held
  rw [first.update_twice] at held
  refine ⟨held, second.inum.trans first.inum, ?_, second.sb.trans first.sb, ?_, ?_, ?_⟩
  · rw [second.fields, first.fields]
  · intro block below
    rw [second.inodeBlocks block (by rw [first.sb]; exact below), first.inodeBlocks block below]
  · intro place present
    exact second.kept place (first.kept place present)
  · intro inum place other
    have later := second.elsewhere inum place (by rw [first.inum]; exact other)
    rw [update_of_ne other] at later
    rw [later, first.elsewhere inum place other]

theorem Grown.refl (held : Held fs ins []) (isIp : ins ip.inum = ip.din) :
    Grown ins fs ip fs ip := by
  refine ⟨Extended.refl held isIp, ?_⟩
  rw [update_own isIp]
  exact fun _ _ => rfl

theorem Grown.trans (first : Grown ins fs ip fs' ip')
    (second : Grown (update ins ip.inum ip'.din) fs' ip' fs'' ip'') :
    Grown ins fs ip fs'' ip'' := by
  refine ⟨first.toExtended.trans second.toExtended, ?_⟩
  have bytes := second.bytes
  rw [first.update_twice] at bytes
  intro inum i
  rw [bytes inum i, first.bytes inum i]

theorem Took.inode_blocks {b : Nat} (took : Took fs b fs') {block : Nat}
    (below : block < fs.sb.bmapstart) : fs'.disk block = fs.disk block := by
  apply took.others block
  · intro bitmap
    have lower := bitmap.1
    omega
  · intro same
    have above := data_above took.data
    omega

theorem no_busy (fs : Fs) : Busy fs none := by
  intro block none
  cases none

theorem fill_addr_spec (held : Held fs ins []) (isIp : ins ip.inum = ip.din) {index : Nat}
    (bound : index < ndirect + 1) : Yields (fillAddr fs ip index)
    (fun result => Grown ins fs ip result.2 result.1 ∧ result.1.din.addr index ≠ 0)
    (fun stop => stop = .outOfBlocks) := by
  unfold fillAddr
  by_cases absent : ip.din.addr index = 0
  · rw [if_pos absent]
    apply (balloc_spec held (no_busy fs)).seq
    · exact fun _ stopped => stopped.1
    intro result took
    obtain ⟨b, fs'⟩ := result
    have held' := took.held held
    have empty : (ins ip.inum).addr index = 0 := by
      rw [isIp]
      exact absent
    have uint := loose_uint held' (.head _)
    have attached := held'.attach_addr ip.inum bound empty took.blank
    have bytes := attach_addr_bytes held' bound empty took.blank
    have before := Took.same_bytes took held
    rw [isIp] at attached bytes
    have set : (ip.din.setAddr index b).addr index = b := Dinode.addr_set_same _ index b bound uint
    have refs := held.same_refs fs' fun block data mark =>
      took.others block (data_not_bitmap data) fun same => by
        rw [same, took.fresh] at mark
        contradiction
    refine ⟨⟨⟨attached, rfl, rfl, took.sb, fun _ below => Took.inode_blocks took below, ?_,
      fun inum place _ => refs inum place⟩,
      fun inum i => (bytes inum i).trans (before inum i)⟩, ?_⟩
    · intro place present
      have other : place ≠ .addr index := by
        intro same
        rw [same] at present
        exact present absent
      have ownRef := refs ip.inum place
      rw [isIp] at ownRef
      simp only
      rw [ref_at_set_addr fs'.disk ip.din bound uint absent took.blank other, ownRef]
      exact present
    · rw [set]
      exact data_ne_zero took.data
  · rw [if_neg absent]
    exact ⟨Grown.refl held isIp, absent⟩

theorem entry_present {disk : Store Buffer} {d : Dinode} {index : Nat} (bound : index < nindirect)
    (present : d.addr ndirect ≠ 0) : refAt disk d (.entry index) =
    readLE (disk (d.addr ndirect)) (sizeofUint * index) sizeofUint := by
  simp only [refAt]
  rw [if_neg (by omega)]

theorem fill_entry_spec (held : Held fs ins []) (isIp : ins ip.inum = ip.din) {index : Nat}
    (bound : index < nindirect) (present : ip.din.addr ndirect ≠ 0) :
    Yields (fillEntry fs (ip.din.addr ndirect) index)
    (fun fs' => Grown ins fs ip fs' ip ∧ refAt fs'.disk ip.din (.entry index) ≠ 0)
    (fun stop => stop = .outOfBlocks) := by
  have presentIn : refAt fs.disk (ins ip.inum) (.addr ndirect) ≠ 0 := by
    rw [isIp]
    exact present
  obtain ⟨data, mark⟩ := held.used ip.inum (.addr ndirect) presentIn
  rw [isIp] at data mark
  have onDisk : ip.din.addr ndirect < fssize := Nat.lt_of_lt_of_le data.2 held.layout.disk
  unfold fillEntry
  rw [bread_ok (by simp) onDisk, ok_bind, ← entry_present bound present]
  by_cases empty : refAt fs.disk ip.din (.entry index) = 0
  · rw [if_pos empty]
    have busy : Busy fs (some (ip.din.addr ndirect)) := by
      intro block same
      cases same
      exact ⟨data, mark⟩
    apply (balloc_spec held busy).seq
    · exact fun _ stopped => stopped.1
    intro result took
    obtain ⟨b, fs'⟩ := result
    have held' := took.held held
    have uint := loose_uint held' (.head _)
    have kept {block : Nat} (isData : IsData fs.sb block) (isMarked : marked fs block = true) :
        fs'.disk block = fs.disk block := by
      apply took.others block (data_not_bitmap isData)
      intro same
      rw [same, took.fresh] at isMarked
      contradiction
    have sameIndirect : fs'.disk (ip.din.addr ndirect) = fs.disk (ip.din.addr ndirect) :=
      kept data mark
    have refs := held.same_refs fs' fun block isData isMarked => kept isData isMarked
    have empty' : refAt fs'.disk (ins ip.inum) (.entry index) = 0 := by
      rw [refs, isIp]
      exact empty
    have presentIn' : (ins ip.inum).addr ndirect ≠ 0 := presentIn
    have attached := held'.attach_entry bound presentIn'
    have bytes := attach_entry_bytes held' bound presentIn' empty' took.blank
    have before := Took.same_bytes took held
    have same := update_own isIp
    have written : refAt (logWrite fs' (ip.din.addr ndirect)
        (writeLE (fs'.disk (ip.din.addr ndirect)) (sizeofUint * index) sizeofUint b)).disk
        ip.din (.entry index) = b := by
      rw [entry_present bound present]
      simp only [logWrite]
      rw [update_self, read_le_write_same]
      exact Nat.mod_eq_of_lt uint
    rw [isIp] at attached bytes
    rw [← sameIndirect]
    refine ⟨⟨⟨by rw [same]; exact attached, rfl, rfl, took.sb, ?_, ?_, ?_⟩, ?_⟩, ?_⟩
    · intro block below
      refine (update_of_ne ?_ _ _).trans (Took.inode_blocks took below)
      have above := data_above data
      intro equal
      have value : refAt fs.disk ip.din (.addr ndirect) = block := equal.symm
      omega
    · intro place isPresent
      by_cases here : place = .entry index
      · rw [here] at isPresent
        exact absurd empty isPresent
      · have moved := ref_at_write_entry held' b presentIn' ip.inum (.inr here)
        rw [refs, isIp] at moved
        simp only [logWrite]
        rw [moved]
        exact isPresent
    · intro inum place other
      have moved := ref_at_write_entry held' b presentIn' inum
        (.inl other : inum ≠ ip.inum ∨ place ≠ .entry index)
      rw [refs, isIp] at moved
      exact moved
    · rw [same]
      intro inum i
      exact (bytes inum i).trans (before inum i)
    · rw [written]
      exact data_ne_zero took.data
  · rw [if_neg empty]
    exact ⟨Grown.refl held isIp, empty⟩

theorem Extended.is_inode (grown : Extended ins fs ip fs' ip') :
    update ins ip.inum ip'.din ip'.inum = ip'.din := by
  rw [grown.inum]
  exact update_self _ _ _

section
variable (held : Held fs ins []) (isIp : ins ip.inum = ip.din)
include held isIp

theorem bmap_grows {bn : Nat} (bound : bn < maxfile) : Yields (bmap fs ip bn)
    (fun result => Grown ins fs ip result.2.2 result.2.1 ∧
    result.1 = refAt result.2.2.disk result.2.1.din (blockPlace bn) ∧ result.1 ≠ 0)
    (fun stop => stop = .outOfBlocks) := by
  unfold bmap
  by_cases direct : bn < ndirect
  · rw [if_pos direct]
    apply (fill_addr_spec held isIp (Nat.lt_succ_of_lt direct)).bind
    intro result filled
    obtain ⟨ip', fs'⟩ := result
    refine ⟨filled.1, ?_, filled.2⟩
    simp only [blockPlace, if_pos direct]
    rfl
  · have small : bn - ndirect < nindirect := by
      unfold maxfile at bound
      omega
    rw [if_neg direct, if_pos small]
    apply (fill_addr_spec held isIp ndirect.lt_succ_self).bind
    intro result filled
    obtain ⟨ip', fs'⟩ := result
    apply (fill_entry_spec filled.1.held filled.1.is_inode small filled.2).bind
    intro fs'' entry
    refine ⟨filled.1.trans entry.1, ?_, entry.2⟩
    simp only [blockPlace, if_neg direct]

theorem bmap_mapped {bn : Nat} (bound : bn < maxfile)
    (mapped : refAt fs.disk ip.din (blockPlace bn) ≠ 0) :
    bmap fs ip bn = .ok (refAt fs.disk ip.din (blockPlace bn), ip, fs) := by
  unfold bmap
  unfold blockPlace at mapped ⊢
  by_cases direct : bn < ndirect
  · rw [if_pos direct] at mapped
    have present : ip.din.addr bn ≠ 0 := mapped
    simp only [if_pos direct, fillAddr, if_neg present]
    rfl
  · have small : bn - ndirect < nindirect := by
      unfold maxfile at bound
      omega
    rw [if_neg direct] at mapped
    have indirect : ip.din.addr ndirect ≠ 0 := by
      intro absent
      apply mapped
      simp [refAt, absent]
    have data : IsData fs.sb (ip.din.addr ndirect) := by
      have used := held.used ip.inum (.addr ndirect)
      rw [isIp] at used
      exact (used indirect).1
    have read : bread fs none (ip.din.addr ndirect) = .ok (fs.disk (ip.din.addr ndirect)) :=
      bread_ok (by simp) (Nat.lt_of_lt_of_le data.2 held.layout.disk)
    have entry : readLE (fs.disk (ip.din.addr ndirect)) (sizeofUint * (bn - ndirect)) sizeofUint ≠
        0 := by
      rw [← entry_present small indirect]
      exact mapped
    simp only [if_neg direct, if_pos small, fillAddr, if_neg indirect, fillEntry, ok_bind, read,
      if_neg entry]

theorem bmap_spec {bn : Nat} (bound : bn < maxfile) : Yields (bmap fs ip bn)
    (fun result => (Grown ins fs ip result.2.2 result.2.1 ∧
    result.1 = refAt result.2.2.disk result.2.1.din (blockPlace bn) ∧ result.1 ≠ 0) ∧
    (refAt fs.disk ip.din (blockPlace bn) ≠ 0 → result.2 = (ip, fs)))
    (fun stop => stop = .outOfBlocks) := by
  apply (bmap_grows held isIp bound).and
  intro result returned mapped
  rw [bmap_mapped held isIp bound mapped] at returned
  cases returned
  rfl

end
end Mapping
end Xv6Hacks.FileMapping
