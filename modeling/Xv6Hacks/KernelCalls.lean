import Xv6Hacks.BlockAllocation

/-!
# What the functions of the inode layer do when they return

One lemma for each function: the cases in which it returns, and the state that it leaves.
The invariants of the file system are proved from these.
-/

namespace Xv6Hacks.KernelCalls

open Function
open BlockAllocation BlockGroupLayout BlockOwnership ByteBuffers DiskFormat GuardedRuns KernelFs

variable {fs after : Fs} {slot : CacheSlot} {inum index bn cwd : Nat}

theorem iget_ok (got : iget fs inum = .ok (slot, after)) :
    (0 < (fs.icache slot).ref ∧ (fs.icache slot).inum = inum ∧
      after = setInode fs slot { fs.icache slot with ref := (fs.icache slot).ref + 1 }) ∨
    ((∀ other, 0 < (fs.icache other).ref → (fs.icache other).inum ≠ inum) ∧
      (fs.icache slot).ref = 0 ∧ after = setInode fs slot
        { fs.icache slot with inum := inum, ref := 1, busy := false, valid := false }) := by
  rw [iget] at got
  split at got
  · rename_i cached found
    have holds := List.find?_some found
    simp only [decide_eq_true_eq] at holds
    cases got
    exact .inl ⟨holds.1, holds.2, rfl⟩
  · rename_i missing
    split at got
    · rename_i empty found
      have free := List.find?_some found
      simp only [decide_eq_true_eq] at free
      cases got
      refine .inr ⟨?_, free, rfl⟩
      intro other used
      have unlike := List.find?_eq_none.mp missing other (List.mem_finRange other)
      simpa [used] using unlike
    · contradiction

theorem ilock_ok (locked : ilock fs slot = .ok after) : 0 < (fs.icache slot).ref ∧
    (((fs.icache slot).valid = true ∧
      after = setInode fs slot { fs.icache slot with busy := true }) ∨
    ((fs.icache slot).valid = false ∧ iblock (fs.icache slot).inum fs.sb < fssize blockgroups ∧
      (loadDinode fs.disk fs.sb (fs.icache slot).inum).type ≠ 0 ∧
      after = setInode fs slot
        { fs.icache slot with
          busy := true
          valid := true
          din := loadDinode fs.disk fs.sb (fs.icache slot).inum })) := by
  rw [ilock] at locked
  split at locked
  · contradiction
  rename_i used
  split at locked
  · contradiction
  split at locked
  · rename_i valid
    cases locked
    exact ⟨by omega, .inl ⟨valid, rfl⟩⟩
  · rename_i invalid
    simp only [bind_ok] at locked
    obtain ⟨buf, read, locked⟩ := locked
    obtain ⟨-, onDisk, rfl⟩ := bread_ok read
    split at locked
    · contradiction
    · rename_i typed
      cases locked
      exact ⟨by omega, .inr ⟨Bool.eq_false_iff.mpr invalid, onDisk, typed, rfl⟩⟩

theorem iupdate_ok (updated : iupdate fs slot = .ok after) :
    after = logWrite fs (iblock (fs.icache slot).inum fs.sb)
    (writeDinode (fs.disk (iblock (fs.icache slot).inum fs.sb))
    (dinodeoffset (fs.icache slot).inum fs.sb) (fs.icache slot).din) := by
  simp only [iupdate, bind_ok] at updated
  obtain ⟨buf, read, result⟩ := updated
  obtain ⟨-, -, rfl⟩ := bread_ok read
  cases result
  rfl

theorem iput_ok (put : iput fs slot = .ok after) :
    ∃ middle, (lastReference (fs.icache slot) = false ∧ middle = fs ∨
        lastReference (fs.icache slot) = true ∧ freeInode fs slot = .ok middle) ∧
      after = setInode middle slot
        { middle.icache slot with ref := (middle.icache slot).ref - 1 } := by
  simp only [iput, bind_ok] at put
  obtain ⟨middle, dropped, result⟩ := put
  cases result
  refine ⟨middle, ?_, rfl⟩
  rw [releaseInode] at dropped
  split at dropped
  · rename_i last
    split at dropped
    · contradiction
    · exact .inr ⟨last, dropped⟩
  · rename_i more
    cases dropped
    exact .inl ⟨Bool.eq_false_iff.mpr more, rfl⟩

section
variable (layout : fs.sb = mkfsSuperblock blockgroups)
include layout

theorem after_take_block {v blockno : Nat} (other : blockno ≠ v)
    (notBitmap : blockno ≠ bblock v (mkfsSuperblock blockgroups)) :
    (afterTake fs v).disk blockno = fs.disk blockno := by
  simp only [afterTake, layout]
  rw [update_of_ne other, update_of_ne notBitmap]

theorem fill_addr_ok (filled : fillAddr fs slot index cwd = .ok after) :
    ((fs.icache slot).din.addr index ≠ 0 ∧ after = fs) ∨
    ((fs.icache slot).din.addr index = 0 ∧ ∃ v, FirstFree fs cwd v ∧
    after = setDin (afterTake fs v) slot
    ((fs.icache slot).din.setAddr index (dblock v (mkfsSuperblock blockgroups)))) := by
  rw [fillAddr] at filled
  split at filled
  · rename_i absent
    simp only [bind_ok, Prod.exists] at filled
    obtain ⟨addr, middle, allocated, result⟩ := filled
    cases result
    obtain ⟨v, first, rfl, rfl, -, -⟩ := balloc_ok layout allocated
    rw [layout]
    exact .inr ⟨absent, v, first, rfl⟩
  · rename_i present
    cases filled
    exact .inl ⟨present, rfl⟩

theorem fill_entry_ok (filled : fillEntry fs slot index cwd = .ok after) :
    (readLE (fs.disk ((fs.icache slot).din.addr ndirect)) (sizeofUint * index) sizeofUint ≠ 0 ∧
    after = fs) ∨
    (readLE (fs.disk ((fs.icache slot).din.addr ndirect)) (sizeofUint * index) sizeofUint = 0 ∧
    ∃ v, FirstFree fs cwd v ∧ after = logWrite (afterTake fs v) ((fs.icache slot).din.addr ndirect)
    (writeLE ((afterTake fs v).disk ((fs.icache slot).din.addr ndirect)) (sizeofUint * index)
    sizeofUint (dblock v (mkfsSuperblock blockgroups)))) := by
  simp only [fillEntry, bind_ok] at filled
  obtain ⟨buf, read, filled⟩ := filled
  obtain ⟨-, -, rfl⟩ := bread_ok read
  split at filled
  · rename_i absent
    simp only [bind_ok, Prod.exists] at filled
    obtain ⟨addr, middle, allocated, result⟩ := filled
    cases result
    obtain ⟨v, first, rfl, rfl, -, -⟩ := balloc_ok layout allocated
    rw [layout]
    exact .inr ⟨absent, v, first, rfl⟩
  · rename_i present
    cases filled
    exact .inl ⟨present, rfl⟩

end

theorem bmap_ok {p : Nat} (mapped : bmap fs slot bn cwd = .ok (p, after)) :
    p = refAt after.disk (after.icache slot).din (blockPlace bn) ∧
    (bn < ndirect ∧ fillAddr fs slot bn cwd = .ok after ∨
    ¬ bn < ndirect ∧ bn - ndirect < nindirect ∧ ∃ middle,
    fillAddr fs slot ndirect cwd = .ok middle ∧
    fillEntry middle slot (bn - ndirect) cwd = .ok after) := by
  rw [bmap] at mapped
  rw [blockPlace]
  split at mapped
  · rename_i direct
    simp only [bind_ok] at mapped
    obtain ⟨filled, first, result⟩ := mapped
    cases result
    rw [if_pos direct]
    exact ⟨rfl, .inl ⟨direct, first⟩⟩
  · rename_i beyond
    split at mapped
    · rename_i inside
      simp only [bind_ok] at mapped
      obtain ⟨middle, first, filled, second, result⟩ := mapped
      cases result
      rw [if_neg beyond]
      exact ⟨rfl, .inr ⟨beyond, inside, middle, first, second⟩⟩
    · contradiction

theorem store_bytes_ok {blockno off : Nat} {bytes : List Byte}
    (stored : storeBytes fs blockno off bytes = .ok after) :
    after = logWrite fs blockno (copyInto (fs.disk blockno) off bytes) := by
  simp only [storeBytes, bind_ok] at stored
  obtain ⟨buf, read, result⟩ := stored
  obtain ⟨-, -, rfl⟩ := bread_ok read
  cases result
  rfl

/-- The loop rule: what holds of the state, the bytes still to be written and the offset
holds at the end if every round keeps it. -/
theorem write_loop_rule {holds : Fs → List Byte → Nat → Prop}
    (round : ∀ fs src off addr mapped stored, src ≠ [] → holds fs src off →
    bmap fs slot (off / bsize) cwd = .ok (addr, mapped) →
    storeBytes mapped addr (off % bsize) (src.take (min src.length (bsize - off % bsize))) =
    .ok stored → holds stored (src.drop (min src.length (bsize - off % bsize)))
    (off + min src.length (bsize - off % bsize))) (src : List Byte) (off : Nat) {last : Nat}
    (start : holds fs src off)
    (wrote : writeLoop fs slot src off cwd = .ok (last, after)) : holds after [] last := by
  induction length : src.length using Nat.strong_induction_on generalizing src off fs with
  | _ count ih =>
    rw [writeLoop] at wrote
    split at wrote
    · rename_i done
      cases wrote
      rw [← done]
      exact start
    · rename_i more
      simp only [bind_ok, Prod.exists] at wrote
      obtain ⟨addr, mapped, first, stored, second, rest⟩ := wrote
      have room := in_block_room off
      have nonempty := List.length_pos_iff.mpr more
      refine ih _ ?_ _ _ (round fs src off addr mapped stored more start first second) rest rfl
      rw [List.length_drop]
      omega

theorem writei_ok {device : BitVec 16 → Option Int} {src : List Byte} {off : Nat} {count : Int}
    (wrote : writei fs device slot src off cwd = .ok (count, after)) :
    after = fs ∨ (off ≤ (fs.icache slot).din.size.toNat ∧
    off + src.length ≤ maxfile * bsize ∧ ∃ last written,
    writeLoop fs slot src off cwd = .ok (last, written) ∧
    (after = written ∨ growSize written slot last = .ok after)) := by
  rw [writei] at wrote
  split at wrote
  · cases wrote
    exact .inl rfl
  split at wrote
  · cases wrote
    exact .inl rfl
  rename_i inside
  split at wrote
  · cases wrote
    exact .inl rfl
  simp only [bind_ok, Prod.exists] at wrote
  obtain ⟨last, written, loop, wrote⟩ := wrote
  refine .inr ⟨by omega, by omega, last, written, loop, ?_⟩
  split at wrote
  · simp only [bind_ok] at wrote
    obtain ⟨grown, grew, result⟩ := wrote
    cases result
    exact .inr grew
  · cases wrote
    exact .inl rfl

end Xv6Hacks.KernelCalls
