import Mathlib.Data.List.GetD
import Xv6Hacks.FileMapping

/-!
# Reading, writing and truncating

What the loops of `readi`, `writei` and `itrunc` do to the bytes of the files and to the
blocks they hold.
-/

namespace Xv6Hacks.FileContents

open BlockOwnership ByteBuffers ClassicFs Function
open BlockGroupLayout (bsize ipb_value maxfile ndirect nindirect sizeofUint)
open Xv6Hacks.DiskFormat (Dinode writeDinode read_write_dinode_other read_write_dinode_same)
open FileBlocks FileMapping Outcomes WriteSequences

theorem bsize_value : bsize = 512 := rfl

theorem same_block (off k : Nat) (room : k < bsize - off % bsize) :
    (off + k) / bsize = off / bsize ∧ (off + k) % bsize = off % bsize + k := by
  rw [bsize_value] at room ⊢
  omega

theorem block_in_file {off : Nat} (inside : off < maxfile * bsize) : off / bsize < maxfile := by
  rw [bsize_value] at inside ⊢
  omega

def RangeMapped (fs : Fs) (ip : Inode) (off n : Nat) : Prop :=
  ∀ i, off ≤ i → i < off + n → refAt fs.disk ip.din (blockPlace (i / bsize)) ≠ 0

section Loops
variable {ins : Nat → Dinode} {fs fs' fs'' : Fs} {ip ip' ip'' : Inode}

theorem Held.block_on_disk (held : Held fs ins []) (isIp : ins ip.inum = ip.din) (place : Place)
    (present : refAt fs.disk ip.din place ≠ 0) :
    bread fs none (refAt fs.disk ip.din place) = .ok (fs.disk (refAt fs.disk ip.din place)) := by
  have used := held.used ip.inum place
  rw [isIp] at used
  exact bread_ok (by simp) (Nat.lt_of_lt_of_le (used present).1.2 held.layout.disk)

theorem block_bytes_file {off m : Nat} (room : m ≤ bsize - off % bsize)
    (present : refAt fs.disk ip.din (blockPlace (off / bsize)) ≠ 0) :
    blockBytes (fs.disk (refAt fs.disk ip.din (blockPlace (off / bsize)))) (off % bsize) m =
    (List.range m).map fun k => fileByte fs.disk ip.din (off + k) := by
  unfold blockBytes
  apply List.map_congr_left
  intro k member
  obtain ⟨block, offset⟩ := same_block off k ((List.mem_range.mp member).trans_le room)
  unfold fileByte
  rw [block, offset]
  simp only [if_neg present]

theorem range_map_split (f : Nat → Byte) {m n : Nat} (small : m ≤ n) :
    (List.range n).map f = (List.range m).map f ++ (List.range (n - m)).map fun k => f (m + k) := by
  have sum : n = m + (n - m) := by omega
  rw [sum, List.range_add, List.map_append, List.map_map, Nat.add_sub_cancel_left]
  rfl

theorem read_loop_spec (n off : Nat) (held : Held fs ins []) (isIp : ins ip.inum = ip.din)
    (inside : off + n ≤ maxfile * bsize) : Yields (readLoop fs ip off n)
    (fun result => Grown ins fs ip result.2.2 result.2.1 ∧
    result.1 = (List.range n).map (fun k => fileByte fs.disk ip.din (off + k)) ∧
    (RangeMapped fs ip off n → result.2 = (ip, fs))) (fun stop => stop = .outOfBlocks) := by
  induction n using Nat.strong_induction_on generalizing ins fs ip off with
  | _ n ih =>
    rw [readLoop]
    by_cases done : n = 0
    · rw [if_pos done]
      subst done
      exact ⟨Grown.refl held isIp, rfl, fun _ => rfl⟩
    · rw [if_neg done]
      have room := in_block_room off
      apply (bmap_spec held isIp (block_in_file (show off < maxfile * bsize by omega))).bind
      intro result found
      obtain ⟨addr, ip1, fs1⟩ := result
      obtain ⟨⟨grown, isRef, present⟩, unchanged⟩ := found
      simp only at grown isRef present unchanged ⊢
      subst isRef
      rw [Held.block_on_disk grown.held grown.is_inode _ present, ok_bind]
      have smaller : n - min n (bsize - off % bsize) < n := by omega
      apply (ih _ smaller (off + min n (bsize - off % bsize)) grown.held grown.is_inode
        (by omega)).bind
      intro result rest
      obtain ⟨bytes, ip2, fs2⟩ := result
      obtain ⟨grown', isBytes, unchanged'⟩ := rest
      simp only at grown' isBytes unchanged' ⊢
      have same (i : Nat) : fileByte fs1.disk ip1.din i = fileByte fs.disk ip.din i := by
        have bytes := grown.bytes ip.inum i
        rw [update_self, isIp] at bytes
        exact bytes
      refine ⟨grown.trans grown', ?_, ?_⟩
      · rw [isBytes, block_bytes_file (Nat.min_le_right _ _) present,
          range_map_split (fun k => fileByte fs.disk ip.din (off + k))
            (Nat.min_le_left n (bsize - off % bsize))]
        simp only [same, Nat.add_assoc]
      · intro mapped
        cases unchanged (mapped off (by omega) (by omega))
        exact unchanged' fun i lower upper => mapped i (by omega) (by omega)

/-- The inode has `src` at `off`; all other bytes are as they were. -/
structure Wrote (ins : Nat → Dinode) (fs : Fs) (ip : Inode) (off : Nat) (src : List Byte)
    (fs' : Fs) (ip' : Inode) : Prop extends Extended ins fs ip fs' ip' where
  bytes : ∀ inum i, fileByte fs'.disk (update ins ip.inum ip'.din inum) i =
    if inum = ip.inum ∧ off ≤ i ∧ i < off + src.length then src.getD (i - off) 0
    else fileByte fs.disk (ins inum) i

theorem Grown.wrote (grown : Grown ins fs ip fs' ip') (off : Nat) :
    Wrote ins fs ip off [] fs' ip' := by
  refine ⟨grown.toExtended, ?_⟩
  intro inum i
  rw [if_neg (by simp only [List.length_nil]; omega)]
  exact grown.bytes inum i

theorem Wrote.trans {off : Nat} {first second : List Byte}
    (left : Wrote ins fs ip off first fs' ip')
    (right : Wrote (update ins ip.inum ip'.din) fs' ip' (off + first.length) second
    fs'' ip'') : Wrote ins fs ip off (first ++ second) fs'' ip'' := by
  refine ⟨left.toExtended.trans right.toExtended, ?_⟩
  have bytes := right.bytes
  rw [left.update_twice, left.inum] at bytes
  intro inum i
  rw [bytes inum i, left.bytes inum i, List.length_append]
  by_cases own : inum = ip.inum
  · subst own
    by_cases before : i < off + first.length
    · rw [if_neg (by omega)]
      by_cases lower : off ≤ i
      · rw [if_pos ⟨rfl, lower, before⟩, if_pos ⟨rfl, lower, by omega⟩,
          List.getD_append _ _ _ _ (by omega)]
      · rw [if_neg (by omega), if_neg (by omega)]
    · by_cases upper : i < off + first.length + second.length
      · rw [if_pos ⟨rfl, by omega, upper⟩, if_pos ⟨rfl, by omega, by omega⟩,
          List.getD_append_right _ _ _ _ (by omega), Nat.sub_sub]
      · rw [if_neg (by omega), if_neg (by omega), if_neg (by omega)]
  · simp only [own, false_and, ↓reduceIte]

theorem store_wrote {off : Nat} (src : List Byte) (held : Held fs ins [])
    (isIp : ins ip.inum = ip.din) (present : refAt fs.disk ip.din (blockPlace (off / bsize)) ≠ 0)
    (fits : off % bsize + src.length ≤ bsize) :
    ∃ fs', storeBytes fs (refAt fs.disk ip.din (blockPlace (off / bsize))) (off % bsize) src =
    .ok fs' ∧ Wrote ins fs ip off src fs' ip := by
  have presentIn : refAt fs.disk (ins ip.inum) (blockPlace (off / bsize)) ≠ 0 := by
    rw [isIp]
    exact present
  have data := (held.used ip.inum _ presentIn).1
  have plain (inum : Nat) :
      (ins inum).addr ndirect ≠ refAt fs.disk (ins ip.inum) (blockPlace (off / bsize)) :=
    held.indirect_ne _ presentIn (.inr (block_place_data _))
  have refs (content : Buffer) (inum : Nat) (place : Place) :
      refAt (update fs.disk (refAt fs.disk (ins ip.inum) (blockPlace (off / bsize)))
        content) (ins inum) place = refAt fs.disk (ins inum) place := by
    apply ref_at_congr _ _ _ _ rfl
    intro _
    exact update_of_ne (plain inum) _ _
  have written := held.write_data data (copyInto (fs.disk (refAt fs.disk (ins ip.inum)
    (blockPlace (off / bsize)))) (off % bsize) src) plain
  unfold storeBytes
  rw [Held.block_on_disk held isIp _ present, ok_bind]
  rw [isIp] at written data plain refs presentIn
  refine ⟨_, rfl, ⟨⟨?_, rfl, rfl, rfl, ?_, ?_, fun inum place _ => refs _ inum place⟩, ?_⟩⟩
  · rw [update_own isIp]
    exact written
  · intro block below
    have above := data_above data
    exact update_of_ne (by omega) _ _
  · intro place isPresent
    have same := refs (copyInto (fs.disk (refAt fs.disk ip.din (blockPlace (off / bsize))))
      (off % bsize) src) ip.inum place
    rw [isIp] at same
    simp only [logWrite]
    rw [same]
    exact isPresent
  · rw [update_own isIp]
    intro inum i
    have range : off ≤ i ∧ i < off + src.length ↔ i / bsize = off / bsize ∧
        off % bsize ≤ i % bsize ∧ i % bsize < off % bsize + src.length := by
      rw [bsize_value] at fits ⊢
      omega
    by_cases here : inum = ip.inum ∧ i / bsize = off / bsize
    · obtain ⟨rfl, block⟩ := here
      have offset : i % bsize - off % bsize = i - off ∨ ¬ off ≤ i := by
        rw [bsize_value] at block ⊢
        omega
      have same := refs (copyInto (fs.disk (refAt fs.disk ip.din (blockPlace (off / bsize))))
        (off % bsize) src) ip.inum (blockPlace (off / bsize))
      rw [isIp] at same ⊢
      unfold fileByte
      simp only [logWrite, block, same, if_neg present, update_self, copyInto, range, true_and]
      split
      · rename_i within
        rcases offset with equal | outside
        · rw [equal]
        · exact absurd (range.mpr ⟨block, within⟩).1 outside
      · rfl
    · rw [if_neg (by rw [range]; tauto)]
      apply file_byte_congr (refs _ inum _)
      intro held'
      refine update_of_ne ?_ _ _
      intro same
      rcases held.distinct inum _ ip.inum (blockPlace (off / bsize)) held' (by rw [isIp]; exact same)
        with ⟨sameInode, samePlace⟩
      exact here ⟨sameInode, block_place_injective samePlace⟩

theorem write_loop_spec (src : List Byte) (off : Nat) (held : Held fs ins [])
    (isIp : ins ip.inum = ip.din) (inside : off + src.length ≤ maxfile * bsize) :
    Yields (writeLoop fs ip src off)
    (fun result => result.1 = off + src.length ∧ Wrote ins fs ip off src result.2.2 result.2.1 ∧
    RangeMapped result.2.2 result.2.1 off src.length ∧
    (RangeMapped fs ip off src.length → result.2.1 = ip)) (fun stop => stop = .outOfBlocks) := by
  induction count : src.length using Nat.strong_induction_on generalizing ins fs ip off src with
  | _ n ih =>
    subst count
    rw [writeLoop]
    by_cases done : src = []
    · rw [if_pos done]
      subst done
      exact ⟨rfl, Grown.wrote (Grown.refl held isIp) off, fun i lower upper => absurd upper (by
        simp only [List.length_nil]
        omega), fun _ => rfl⟩
    · rw [if_neg done]
      have nonempty := List.length_pos_iff.mpr done
      have room := in_block_room off
      apply (bmap_spec held isIp (block_in_file (show off < maxfile * bsize by omega))).bind
      intro result found
      obtain ⟨addr, ip1, fs1⟩ := result
      obtain ⟨⟨grown, isRef, present⟩, unchanged⟩ := found
      simp only at grown isRef present unchanged ⊢
      subst isRef
      generalize chunk : min src.length (bsize - off % bsize) = m
      have taken : (src.take m).length = m := by
        rw [List.length_take]
        omega
      have left : (src.drop m).length = src.length - m := List.length_drop
      rcases store_wrote (src.take m) grown.held grown.is_inode present (by
        omega) with ⟨fs2, stored, wrote⟩
      rw [stored, ok_bind]
      have step : Wrote ins fs ip off (src.take m) fs2 ip1 := by
        have both := (Grown.wrote grown off).trans wrote
        rwa [List.nil_append] at both
      apply (ih _ (by omega) (src.drop m) (off + m) step.held step.is_inode (by omega) left).mono
        ?_ fun _ stopped => stopped
      intro result rest
      obtain ⟨last, ip3, fs3⟩ := result
      obtain ⟨isLast, wrote', mapped', unchanged'⟩ := rest
      simp only at isLast wrote' mapped' unchanged' ⊢
      refine ⟨by omega, ?_, ?_, ?_⟩
      · rw [← taken] at wrote'
        have both := step.trans wrote'
        rwa [taken, List.take_append_drop] at both
      · intro i lower upper
        by_cases here : i < off + m
        · obtain ⟨block, -⟩ := same_block off (i - off) (by omega)
          rw [Nat.add_sub_cancel' lower] at block
          rw [block]
          exact wrote'.kept _ (wrote.kept _ present)
        · exact mapped' i (by omega) (by omega)
      · intro mapped
        cases unchanged (mapped off (by omega) (by omega))
        apply unchanged'
        intro i lower upper
        exact step.kept _ (mapped i (by omega) (by omega))

/-- The inode may have lost blocks; all other files have the bytes they had. -/
structure Shrunk (ins : Nat → Dinode) (fs : Fs) (ip : Inode) (fs' : Fs) (ip' : Inode) : Prop where
  held : Held fs' (update ins ip.inum ip'.din) []
  inum : ip'.inum = ip.inum
  fields : ip'.din = { ip.din with addrs := ip'.din.addrs }
  sb : fs'.sb = fs.sb
  inodeBlocks : ∀ block, block < fs.sb.bmapstart → fs'.disk block = fs.disk block
  bytes : ∀ inum i, inum ≠ ip.inum → fileByte fs'.disk (ins inum) i = fileByte fs.disk (ins inum) i
  elsewhere : ∀ inum place, inum ≠ ip.inum →
    refAt fs'.disk (ins inum) place = refAt fs.disk (ins inum) place

theorem Shrunk.refl (held : Held fs ins []) (isIp : ins ip.inum = ip.din) :
    Shrunk ins fs ip fs ip :=
  ⟨by rw [update_own isIp]; exact held, rfl, rfl, rfl, fun _ _ => rfl, fun _ _ _ => rfl,
    fun _ _ _ => rfl⟩

theorem Shrunk.is_inode (shrunk : Shrunk ins fs ip fs' ip') :
    update ins ip.inum ip'.din ip'.inum = ip'.din := by
  rw [shrunk.inum]
  exact update_self _ _ _

theorem Shrunk.trans (first : Shrunk ins fs ip fs' ip')
    (second : Shrunk (update ins ip.inum ip'.din) fs' ip' fs'' ip'') :
    Shrunk ins fs ip fs'' ip'' := by
  have held := second.held
  rw [first.inum, update_idem] at held
  refine ⟨held, second.inum.trans first.inum, ?_, second.sb.trans first.sb, ?_, ?_, ?_⟩
  · rw [second.fields, first.fields]
  · intro block below
    rw [second.inodeBlocks block (by rw [first.sb]; exact below), first.inodeBlocks block below]
  · intro inum i other
    have bytes := second.bytes inum i (by rw [first.inum]; exact other)
    rw [update_of_ne other] at bytes
    rw [bytes, first.bytes inum i other]
  · intro inum place other
    have later := second.elsewhere inum place (by rw [first.inum]; exact other)
    rw [update_of_ne other] at later
    rw [later, first.elsewhere inum place other]

theorem Gave.inode_blocks {b : Nat} (gave : Gave fs b fs') {block : Nat}
    (below : block < fs.sb.bmapstart) : fs'.disk block = fs.disk block := by
  apply gave.others block
  intro bitmap
  have lower := bitmap.1
  omega

theorem ref_at_clear_addr (disk : Store Buffer) (d : Dinode) {index : Nat}
    (bound : index < ndirect + 1) (place : Place) :
    refAt disk (d.setAddr index 0) place = refAt disk d place ∨
    refAt disk (d.setAddr index 0) place = 0 := by
  apply ref_at_shrinks
  · intro other
    by_cases same : other = index
    · subst same
      exact .inr (Dinode.addr_set_same d other 0 bound (by norm_num))
    · exact .inl (Dinode.addr_set_other d index other 0 same)
  · exact fun _ => .inl rfl

theorem clear_kept {inum index : Nat} (bound : index < ndirect + 1) (other : Nat) (place : Place) :
    refAt fs.disk (update ins inum ((ins inum).setAddr index 0) other) place =
    refAt fs.disk (ins other) place ∨
    refAt fs.disk (update ins inum ((ins inum).setAddr index 0) other) place = 0 := by
  by_cases same : other = inum
  · subst same
    rw [update_self]
    exact ref_at_clear_addr fs.disk _ bound place
  · rw [update_of_ne same]
    exact .inl rfl

theorem free_addr_spec (held : Held fs ins []) (isIp : ins ip.inum = ip.din) {index : Nat}
    (direct : index < ndirect) :
    ∃ ip' fs', freeAddr (ip, fs) index = .ok (ip', fs') ∧ Shrunk ins fs ip fs' ip' := by
  unfold freeAddr
  simp only
  by_cases absent : ip.din.addr index = 0
  · rw [if_pos absent]
    exact ⟨ip, fs, rfl, Shrunk.refl held isIp⟩
  · rw [if_neg absent]
    have bound : index < ndirect + 1 := Nat.lt_succ_of_lt direct
    have detached : Held fs (update ins ip.inum ((ins ip.inum).setAddr index 0))
        [ip.din.addr index] := by
      refine held.detach [ip.din.addr index] (clear_kept bound) ?_ (List.nodup_singleton _)
      intro b member
      rw [List.mem_singleton.mp member]
      refine ⟨ip.inum, .addr index, ?_, absent, ?_⟩
      · rw [isIp]
        rfl
      · rw [update_self, isIp]
        exact Dinode.addr_set_same _ index 0 bound (by norm_num)
    obtain ⟨fs', freed, gave⟩ := bfree_gave detached (no_busy fs)
    rw [freed, ok_bind]
    have after := gave.held detached
    rw [isIp] at after
    refine ⟨_, fs', rfl, ⟨after, rfl, rfl, gave.sb, fun _ below => Gave.inode_blocks gave below,
      fun inum i _ => Gave.same_bytes gave held inum i, fun inum place _ => ?_⟩⟩
    exact held.same_refs fs' (fun block data _ => gave.others block (data_not_bitmap data))
      inum place

theorem free_addrs_spec (indexes : List Nat) (direct : ∀ index, index ∈ indexes → index < ndirect)
    (held : Held fs ins []) (isIp : ins ip.inum = ip.din) :
    ∃ ip' fs', indexes.foldlM freeAddr (ip, fs) = .ok (ip', fs') ∧ Shrunk ins fs ip fs' ip' := by
  induction indexes generalizing ins fs ip with
  | nil => exact ⟨ip, fs, rfl, Shrunk.refl held isIp⟩
  | cons index rest ih =>
    obtain ⟨ip1, fs1, first, shrunk⟩ := free_addr_spec held isIp (direct index (.head _))
    rcases ih (fun later member => direct later (.tail index member))
      shrunk.held shrunk.is_inode with ⟨ip2, fs2, more, shrunk'⟩
    refine ⟨ip2, fs2, ?_, shrunk.trans shrunk'⟩
    rw [List.foldlM_cons, first, ok_bind, more]

def namedBlocks (buf : Buffer) (indexes : List Nat) : List Nat :=
  (indexes.filter fun index => readLE buf (sizeofUint * index) sizeofUint ≠ 0).map
    fun index => readLE buf (sizeofUint * index) sizeofUint

theorem free_entries_spec (indirect : Nat) (buf : Buffer) (indexes : List Nat)
    (held : Held fs ins (namedBlocks buf indexes ++ [indirect])) :
    ∃ fs', indexes.foldlM (freeEntry indirect buf) fs = .ok fs' ∧ Held fs' ins [indirect] ∧
    fs'.sb = fs.sb ∧ (∀ block, ¬ IsBitmap fs.sb block → fs'.disk block = fs.disk block) := by
  induction indexes generalizing fs with
  | nil => exact ⟨fs, rfl, held, rfl, fun _ _ => rfl⟩
  | cons index rest ih =>
    rw [List.foldlM_cons]
    by_cases empty : readLE buf (sizeofUint * index) sizeofUint = 0
    · have same : namedBlocks buf (index :: rest) = namedBlocks buf rest := by
        unfold namedBlocks
        rw [List.filter_cons_of_neg (by simp [empty])]
      rw [same] at held
      obtain ⟨fs', freed, facts⟩ := ih held
      refine ⟨fs', ?_, facts⟩
      unfold freeEntry
      rw [if_pos empty, ok_bind]
      exact freed
    · have more : namedBlocks buf (index :: rest) =
          readLE buf (sizeofUint * index) sizeofUint :: namedBlocks buf rest := by
        unfold namedBlocks
        rw [List.filter_cons_of_pos (by simp [empty]), List.map_cons]
      rw [more] at held
      have busy : Busy fs (some indirect) := by
        intro block same
        cases same
        exact held.looseUsed indirect (by simp)
      obtain ⟨fs1, first, gave⟩ := bfree_gave held busy
      obtain ⟨fs', freed, held', sb, blocks⟩ := ih (gave.held held)
      refine ⟨fs', ?_, held', sb.trans gave.sb, ?_⟩
      · unfold freeEntry
        rw [if_neg empty, first, ok_bind]
        exact freed
      · intro block other
        rw [blocks block (by rw [gave.sb]; exact other), gave.others block other]

theorem named_blocks_once (held : Held fs ins []) (isIp : ins ip.inum = ip.din)
    (present : ip.din.addr ndirect ≠ 0) :
    (namedBlocks (fs.disk (ip.din.addr ndirect)) (List.range nindirect) ++
    [ip.din.addr ndirect]).Nodup := by
  have entry {index : Nat} (member : index ∈ List.range nindirect) :
      readLE (fs.disk (ip.din.addr ndirect)) (sizeofUint * index) sizeofUint =
        refAt fs.disk (ins ip.inum) (.entry index) := by
    rw [isIp, entry_present (List.mem_range.mp member) present]
  rw [List.nodup_append]
  refine ⟨?_, List.nodup_singleton _, ?_⟩
  · unfold namedBlocks
    apply List.Nodup.map_on
    · intro left leftMember right rightMember same
      simp only [List.mem_filter, decide_eq_true_eq] at leftMember rightMember
      rw [entry leftMember.1, entry rightMember.1] at same
      rw [entry leftMember.1] at leftMember
      have places := (held.distinct _ _ _ _ leftMember.2 same).2
      injection places
    · exact List.nodup_range.filter _
  · intro block named other isIndirect same
    rw [List.mem_singleton] at isIndirect
    unfold namedBlocks at named
    obtain ⟨index, member, isBlock⟩ := List.mem_map.mp named
    simp only [List.mem_filter, decide_eq_true_eq] at member
    rw [entry member.1] at isBlock member
    have indirect : refAt fs.disk (ins ip.inum) (.addr ndirect) = ip.din.addr ndirect := by
      rw [isIp]
      rfl
    have places := (held.distinct ip.inum (.entry index) ip.inum (.addr ndirect) member.2 (by
      rw [isBlock, same, isIndirect, indirect])).2
    cases places

theorem free_indirect_spec (held : Held fs ins []) (isIp : ins ip.inum = ip.din) :
    ∃ ip' fs', freeIndirect ip fs = .ok (ip', fs') ∧ Shrunk ins fs ip fs' ip' := by
  unfold freeIndirect
  simp only
  by_cases absent : ip.din.addr ndirect = 0
  · rw [if_pos absent]
    exact ⟨ip, fs, rfl, Shrunk.refl held isIp⟩
  · rw [if_neg absent]
    have zero : (ip.din.setAddr ndirect 0).addr ndirect = 0 :=
      Dinode.addr_set_same _ ndirect 0 (Nat.lt_succ_self _) (by norm_num)
    have detached : Held fs (update ins ip.inum ((ins ip.inum).setAddr ndirect 0))
        (namedBlocks (fs.disk (ip.din.addr ndirect)) (List.range nindirect) ++
          [ip.din.addr ndirect]) := by
      rw [← List.append_nil (namedBlocks _ _ ++ _)]
      refine held.detach _ (clear_kept (Nat.lt_succ_self _)) ?_
        (named_blocks_once held isIp absent)
      intro b member
      rcases List.mem_append.mp member with named | isIndirect
      · unfold namedBlocks at named
        obtain ⟨index, inside, isBlock⟩ := List.mem_map.mp named
        simp only [List.mem_filter, decide_eq_true_eq, List.mem_range] at inside
        refine ⟨ip.inum, .entry index, ?_, by rw [← isBlock]; exact inside.2, ?_⟩
        · rw [isIp, entry_present inside.1 absent, isBlock]
        · rw [update_self, isIp]
          simp only [refAt, zero, true_or, ↓reduceIte]
      · rw [List.mem_singleton.mp isIndirect]
        refine ⟨ip.inum, .addr ndirect, ?_, absent, ?_⟩
        · rw [isIp]
          rfl
        · rw [update_self, isIp]
          exact zero
    have read := Held.block_on_disk held isIp (.addr ndirect) absent
    simp only [refAt] at read
    obtain ⟨fs1, entries, held1, sb1, blocks1⟩ := free_entries_spec _ _ _ detached
    obtain ⟨fs2, freed, gave⟩ := bfree_gave held1 (no_busy fs1)
    have after := gave.held held1
    have data {block : Nat} (isData : IsData fs.sb block) (_ : marked fs block = true) :
        fs2.disk block = fs.disk block := by
      have other := data_not_bitmap isData
      rw [gave.others block (by rw [sb1]; exact other), blocks1 block other]
    rw [isIp] at after
    refine ⟨{ ip with din := ip.din.setAddr ndirect 0 }, fs2, ?_, ⟨after, rfl, rfl,
      gave.sb.trans sb1, ?_, fun inum i _ => Held.same_bytes held (fun _ => data) inum i,
      fun inum place _ => held.same_refs fs2 (fun _ => data) inum place⟩⟩
    · rw [read, ok_bind, entries, ok_bind]
      unfold freeAddr
      simp only
      rw [if_neg absent, freed, ok_bind]
    · intro block below
      rw [Gave.inode_blocks gave (by rw [sb1]; exact below), blocks1 block (by
        intro bitmap
        have lower := bitmap.1
        omega)]

structure Saved (fs : Fs) (ip : Inode) (fs' : Fs) : Prop where
  sb : fs'.sb = fs.sb
  data : ∀ block, IsData fs.sb block → fs'.disk block = fs.disk block
  own : loadDinode fs' ip.inum = ip.din
  others : ∀ inum, inum ≠ ip.inum → loadDinode fs' inum = loadDinode fs inum

variable {loose : List Nat}

theorem iupdate_saved (ip : Inode) (held : Held fs ins loose) (inside : ip.inum < fs.sb.ninodes) :
    ∃ fs', iupdate fs ip = .ok fs' ∧ Held fs' ins loose ∧ Saved fs ip fs' := by
  obtain ⟨after, before⟩ := held.layout.iblock_place inside
  have metadata : iblock ip.inum fs.sb < dataStart fs.sb := by
    unfold dataStart
    rw [bpb_value]
    omega
  refine ⟨logWrite fs (iblock ip.inum fs.sb)
    (writeDinode (fs.disk (iblock ip.inum fs.sb)) (dinodeoffset ip.inum) ip.din), ?_,
    held.write_inode_block after before _, rfl, ?_, ?_, ?_⟩
  · unfold iupdate
    rw [bread_metadata held.layout (no_busy fs) metadata, ok_bind]
  · intro block isData
    have above := data_above isData
    exact update_of_ne (by omega) _ _
  · unfold loadDinode logWrite
    simp only [update_self]
    exact read_write_dinode_same _ _ _
  · intro inum different
    unfold loadDinode logWrite
    by_cases block : iblock inum fs.sb = iblock ip.inum fs.sb
    · simp only [block, update_self]
      apply read_write_dinode_other
      unfold iblock at block
      unfold dinodeoffset
      rw [ipb_value] at block ⊢
      omega
    · simp only [update_of_ne block]

theorem Saved.same_bytes (saved : Saved fs ip fs') (held : Held fs ins loose) :
    SameBytes fs.disk ins fs'.disk ins :=
  Held.same_bytes held fun block data _ => saved.data block data

theorem Saved.same_refs (saved : Saved fs ip fs') (held : Held fs ins loose) (inum : Nat)
    (place : Place) : refAt fs'.disk (ins inum) place = refAt fs.disk (ins inum) place :=
  held.same_refs fs' (fun block data _ => saved.data block data) inum place

theorem Held.set_size (held : Held fs (update ins ip.inum ip.din) loose)
    (size : Nat) : Held fs (update ins ip.inum (setSize ip size).din) loose := by
  refine held.reshape rfl rfl (fun _ _ => rfl) ?_
  intro inum place
  by_cases same : inum = ip.inum
  · subst same
    rw [update_self, update_self]
    exact ref_at_congr _ _ _ _ rfl (fun _ => rfl) place
  · rw [update_of_ne same, update_of_ne same]

theorem itrunc_spec (held : Held fs ins []) (isIp : ins ip.inum = ip.din)
    (inside : ip.inum < fs.sb.ninodes) :
    ∃ ip' fs', itrunc fs ip = .ok (ip', fs') ∧ ip'.inum = ip.inum ∧
      Held fs' (update ins ip.inum ip'.din) [] ∧
      ip'.din = { ip.din with size := 0, addrs := ip'.din.addrs } ∧ fs'.sb = fs.sb ∧
      loadDinode fs' ip.inum = ip'.din ∧
      (∀ inum, inum < fs.sb.ninodes → inum ≠ ip.inum → loadDinode fs' inum = loadDinode fs inum) ∧
      (∀ inum i, inum ≠ ip.inum → fileByte fs'.disk (ins inum) i = fileByte fs.disk (ins inum) i) ∧
      ∀ inum place, inum ≠ ip.inum →
        refAt fs'.disk (ins inum) place = refAt fs.disk (ins inum) place := by
  rcases free_addrs_spec (List.range ndirect) (fun index member => List.mem_range.mp member) held
    isIp with ⟨ip1, fs1, direct, shrunk1⟩
  obtain ⟨ip2, fs2, indirect, shrunk2⟩ := free_indirect_spec shrunk1.held shrunk1.is_inode
  have shrunk := shrunk1.trans shrunk2
  have ready : Held fs2 (update ins ip2.inum ip2.din) [] := by
    rw [shrunk.inum]
    exact shrunk.held
  have sized := Held.set_size ready 0
  rcases iupdate_saved (setSize ip2 0) sized (by
    rw [shrunk.sb]
    exact (congrArg (· < fs.sb.ninodes) shrunk.inum).mpr inside) with ⟨fs3, updated, held3, saved⟩
  have sameInum : (setSize ip2 0).inum = ip.inum := shrunk.inum
  refine ⟨setSize ip2 0, fs3, ?_, sameInum, ?_, ?_, saved.sb.trans shrunk.sb, ?_, ?_, ?_, ?_⟩
  · unfold itrunc
    simp only [direct, indirect, updated, ok_bind]
  · rw [← shrunk.inum]
    exact held3
  · unfold setSize
    rw [shrunk.fields]
    rfl
  · rw [← sameInum]
    exact saved.own
  · intro inum below other
    rw [saved.others inum (by rw [sameInum]; exact other)]
    have layout := held.layout.iblock_place below
    unfold loadDinode
    rw [shrunk.sb, shrunk.inodeBlocks _ layout.2]
  · intro inum i other
    have last := Saved.same_bytes saved sized inum i
    rw [shrunk.inum, update_of_ne other] at last
    rw [last, shrunk.bytes inum i other]
  · intro inum place other
    have last := Saved.same_refs saved sized inum place
    rw [shrunk.inum, update_of_ne other] at last
    rw [last, shrunk.elsewhere inum place other]

end Loops
end Xv6Hacks.FileContents
