import Xv6Hacks.KernelCalls
import Xv6Hacks.MkfsInodes

/-!
# Block accounting over runs of the file system

The inode of a number is its valid entry in the inode cache, or else the record on
disk. Calls of `fs.c` are cut into steps that call `balloc` at most once; `writei`
is a run of such steps. Every state reached keeps each block in one place of one
inode and its bit set, as long as no deleted inode holds a block and no allocation
hands out the first block of a group or clears a bitmap block.
-/

namespace Xv6Hacks.BlockAccounting

open BlockAllocation BlockGroupLayout BlockOwnership ByteBuffers DiskFormat Function GuardedRuns
open KernelCalls KernelFs WriteSequences

variable {inum cwd : Nat} {fs : Fs} {slot : CacheSlot}

structure Live (fs : Fs) (slot : CacheSlot) (inum : Nat) : Prop where
  ref : 0 < (fs.icache slot).ref
  valid : (fs.icache slot).valid = true
  inum : (fs.icache slot).inum = inum

def inodeOf (fs : Fs) (inum : Nat) : Dinode :=
  match (List.finRange ninode).find? fun slot =>
      decide (0 < (fs.icache slot).ref ∧ (fs.icache slot).valid = true ∧
        (fs.icache slot).inum = inum) with
  | some slot => (fs.icache slot).din
  | none => loadDinode fs.disk fs.sb inum

def inodes (fs : Fs) (inum : Nat) : Dinode :=
  if inum < fs.sb.ninodes then inodeOf fs inum else Dinode.blank

def CachedOnce (fs : Fs) : Prop :=
  ∀ left right, 0 < (fs.icache left).ref → 0 < (fs.icache right).ref →
    (fs.icache left).inum = (fs.icache right).inum → left = right

theorem inode_of_live (once : CachedOnce fs) (live : Live fs slot inum) :
    inodeOf fs inum = (fs.icache slot).din := by
  rw [inodeOf]
  split
  · rename_i other found
    have holds := List.find?_some found
    simp only [decide_eq_true_eq] at holds
    rw [once other slot holds.1 live.ref (holds.2.2.trans live.inum.symm)]
  · rename_i missing
    have absent := List.find?_eq_none.mp missing slot (List.mem_finRange slot)
    simp [live.ref, live.valid, live.inum] at absent

theorem inode_of_cases (fs : Fs) (inum : Nat) :
    (∃ slot, Live fs slot inum ∧ inodeOf fs inum = (fs.icache slot).din) ∨
    inodeOf fs inum = loadDinode fs.disk fs.sb inum := by
  rw [inodeOf]
  split
  · rename_i slot found
    have holds := List.find?_some found
    simp only [decide_eq_true_eq] at holds
    exact .inl ⟨slot, ⟨holds.1, holds.2.1, holds.2.2⟩, rfl⟩
  · exact .inr rfl

theorem inode_of_idle (idle : ∀ slot, ¬ Live fs slot inum) :
    inodeOf fs inum = loadDinode fs.disk fs.sb inum := by
  rcases inode_of_cases fs inum with ⟨slot, live, -⟩ | same
  · exact absurd live (idle slot)
  · exact same

theorem live_set_inode {other : CacheSlot} {ip : Inode}
    (live : Live (setInode fs slot ip) other inum) :
    (other = slot ∧ 0 < ip.ref ∧ ip.valid = true ∧ ip.inum = inum ∧
    (setInode fs slot ip).icache other = ip) ∨
    (Live fs other inum ∧ (setInode fs slot ip).icache other = fs.icache other) := by
  obtain ⟨ref, valid, number⟩ := live
  by_cases here : other = slot
  · subst here
    rw [set_inode_same] at ref valid number
    exact .inl ⟨rfl, ref, valid, number, set_inode_same _ _ _⟩
  · rw [set_inode_other fs slot other ip here] at ref valid number ⊢
    exact .inr ⟨⟨ref, valid, number⟩, rfl⟩

theorem cached_once_set (once : CachedOnce fs) (slot : CacheSlot) (ip : Inode)
    (inum : ip.inum = (fs.icache slot).inum) (ref : 0 < ip.ref → 0 < (fs.icache slot).ref) :
    CachedOnce (setInode fs slot ip) := by
  have entry (other : CacheSlot) :
      ((setInode fs slot ip).icache other).inum = (fs.icache other).inum ∧
        (0 < ((setInode fs slot ip).icache other).ref → 0 < (fs.icache other).ref) := by
    by_cases here : other = slot
    · subst here
      rw [set_inode_same]
      exact ⟨inum, ref⟩
    · rw [set_inode_other fs slot other ip here]
      exact ⟨rfl, id⟩
  intro left right leftUsed rightUsed same
  rw [(entry left).1, (entry right).1] at same
  exact once left right ((entry left).2 leftUsed) ((entry right).2 rightUsed) same

theorem live_or_idle (fs : Fs) (inum : Nat) :
    (∃ slot, Live fs slot inum) ∨ ∀ slot, ¬ Live fs slot inum := by
  by_cases cached : ∃ slot, Live fs slot inum
  · exact .inl cached
  · exact .inr (not_exists.mp cached)

/-- `taken` is the set of virtual blocks in use; `Accounted` has it read from the
bitmaps. -/
structure AccountedFor (taken : Nat → Prop) (fs : Fs) : Prop where
  layout : fs.sb = mkfsSuperblock blockgroups
  once : CachedOnce fs
  inside : ∀ slot inum, Live fs slot inum → inum < fs.sb.ninodes
  /-- The record on disk of a cached inode lacks some of its addresses at most. -/
  behind : ∀ slot inum, Live fs slot inum → ∀ index,
    (loadDinode fs.disk fs.sb inum).addr index = (fs.icache slot).din.addr index ∨
      (loadDinode fs.disk fs.sb inum).addr index = 0
  owned : Owned blockgroups taken (inodes fs) fs.disk

def Accounted (fs : Fs) : Prop := AccountedFor (Taken fs) fs

section Kept
variable {taken : Nat → Prop} {fs after : Fs}

theorem AccountedFor.mark (accounted : AccountedFor taken fs) (more : Nat → Prop)
    (grows : ∀ v, taken v → more v) : AccountedFor more fs :=
  { accounted with owned := accounted.owned.mark more grows }

theorem inodes_live (accounted : AccountedFor taken fs) (live : Live fs slot inum) :
    inodes fs inum = (fs.icache slot).din := by
  rw [inodes, if_pos (accounted.inside slot inum live)]
  exact inode_of_live accounted.once live

theorem AccountedFor.recache (accounted : AccountedFor taken fs) (sameSb : after.sb = fs.sb)
    (sameDisk : after.disk = fs.disk) (once : CachedOnce after)
    (lives : ∀ slot inum, Live after slot inum →
    (Live fs slot inum ∧ (after.icache slot).din = (fs.icache slot).din) ∨
    (inum < fs.sb.ninodes ∧ (∀ other, ¬ Live fs other inum) ∧
    (after.icache slot).din = loadDinode fs.disk fs.sb inum)) : AccountedFor taken after := by
  constructor
  · rw [sameSb]
    exact accounted.layout
  · exact once
  · intro slot inum live
    rw [sameSb]
    rcases lives slot inum live with ⟨before, -⟩ | ⟨inside, -, -⟩
    · exact accounted.inside slot inum before
    · exact inside
  · intro slot inum live index
    rw [sameSb, sameDisk]
    rcases lives slot inum live with ⟨before, same⟩ | ⟨-, -, loaded⟩
    · rw [same]
      exact accounted.behind slot inum before index
    · rw [loaded]
      exact .inl rfl
  · apply accounted.owned.shrink
    · intro inum place
      rw [sameDisk]
      apply ref_at_shrinks
      · intro index
        simp only [inodes, sameSb]
        split
        · rcases live_or_idle after inum with ⟨slot, live⟩ | idle
          · rw [inode_of_live once live]
            rcases lives slot inum live with ⟨before, same⟩ | ⟨-, absent, loaded⟩
            · rw [same, inode_of_live accounted.once before]
              exact .inl rfl
            · rw [loaded, inode_of_idle absent]
              exact .inl rfl
          · rw [inode_of_idle idle, sameSb, sameDisk]
            rcases live_or_idle fs inum with ⟨slot, live⟩ | absent
            · rw [inode_of_live accounted.once live]
              exact accounted.behind slot inum live index
            · rw [inode_of_idle absent]
              exact .inl rfl
        · exact .inl rfl
      · intro _
        exact .inl rfl
    · intro v inside free
      rw [sameDisk]
      exact accounted.owned.blank v inside free

theorem live_congr (sameCache : after.icache = fs.icache) (slot : CacheSlot) (inum : Nat) :
    Live after slot inum ↔ Live fs slot inum := by
  constructor
  · intro live
    exact ⟨sameCache ▸ live.ref, sameCache ▸ live.valid, sameCache ▸ live.inum⟩
  · intro live
    exact ⟨sameCache ▸ live.ref, sameCache ▸ live.valid, sameCache ▸ live.inum⟩

section
variable (accounted : AccountedFor taken fs)
include accounted

section
variable (sameSb : after.sb = fs.sb) (sameCache : after.icache = fs.icache)
include sameSb sameCache

/-- Records of inodes that are not cached may lose addresses, records of cached inodes
may catch up with them, and data blocks may be blanked. -/
theorem AccountedFor.redisk
    (idle : ∀ inum, inum < fs.sb.ninodes → (∀ slot, ¬ Live fs slot inum) → ∀ index,
    (loadDinode after.disk fs.sb inum).addr index = (loadDinode fs.disk fs.sb inum).addr index ∨
    (loadDinode after.disk fs.sb inum).addr index = 0)
    (cached : ∀ slot inum, Live fs slot inum → ∀ index,
    (loadDinode after.disk fs.sb inum).addr index = (fs.icache slot).din.addr index ∨
    (loadDinode after.disk fs.sb inum).addr index = 0) (data : ∀ v, v % ndatablocks ≠ 0 →
    after.disk (dblock v (mkfsSuperblock blockgroups)) =
    fs.disk (dblock v (mkfsSuperblock blockgroups)) ∨
    after.disk (dblock v (mkfsSuperblock blockgroups)) = blankBlock) :
    AccountedFor taken after := by
  have lives := live_congr sameCache
  have once : CachedOnce after := by
    rw [CachedOnce, sameCache]
    exact accounted.once
  constructor
  · rw [sameSb]
    exact accounted.layout
  · exact once
  · intro slot inum live
    rw [sameSb]
    exact accounted.inside slot inum ((lives slot inum).mp live)
  · intro slot inum live
    rw [sameSb, sameCache]
    exact cached slot inum ((lives slot inum).mp live)
  · apply accounted.owned.shrink
    · intro inum place
      apply ref_at_shrinks
      · intro index
        simp only [inodes, sameSb]
        split
        · rename_i inside
          rcases live_or_idle fs inum with ⟨slot, live⟩ | absent
          · rw [inode_of_live once ((lives slot inum).mpr live),
              inode_of_live accounted.once live, sameCache]
            exact .inl rfl
          · rw [inode_of_idle fun slot live => absent slot ((lives slot inum).mp live),
              inode_of_idle absent, sameSb]
            exact idle inum inside absent index
        · exact .inl rfl
      · intro present
        obtain ⟨v, inside, -, located⟩ := accounted.owned.mapped inum (.addr ndirect) present
        have located : (inodes fs inum).addr ndirect = _ := located
        rw [located]
        exact data v inside
    · intro v inside free
      rcases data v inside with same | blanked
      · rw [same]
        exact accounted.owned.blank v inside free
      · exact blanked

theorem AccountedFor.forget (records : ∀ inum, inum < fs.sb.ninodes → ∀ index,
    (loadDinode after.disk fs.sb inum).addr index = (loadDinode fs.disk fs.sb inum).addr index ∨
    (loadDinode after.disk fs.sb inum).addr index = 0) (data : ∀ v, v % ndatablocks ≠ 0 →
    after.disk (dblock v (mkfsSuperblock blockgroups)) =
    fs.disk (dblock v (mkfsSuperblock blockgroups)) ∨
    after.disk (dblock v (mkfsSuperblock blockgroups)) = blankBlock) :
    AccountedFor taken after := by
  apply accounted.redisk sameSb sameCache
  · intro inum inside _
    exact records inum inside
  · intro slot inum live index
    rcases records inum (accounted.inside slot inum live) index with same | gone
    · rw [same]
      exact accounted.behind slot inum live index
    · exact .inr gone
  · exact data

theorem AccountedFor.rewrite
    (records : ∀ inum, loadDinode after.disk fs.sb inum = loadDinode fs.disk fs.sb inum)
    (more : Nat → Prop) (owned : Owned blockgroups more (inodes fs) after.disk) :
    AccountedFor more after := by
  have lives := live_congr sameCache
  have once : CachedOnce after := by
    rw [CachedOnce, sameCache]
    exact accounted.once
  constructor
  · rw [sameSb]
    exact accounted.layout
  · exact once
  · intro slot inum live
    rw [sameSb]
    exact accounted.inside slot inum ((lives slot inum).mp live)
  · intro slot inum live
    rw [sameSb, sameCache, records]
    exact accounted.behind slot inum ((lives slot inum).mp live)
  · have unchanged : inodes after = inodes fs := by
      funext inum
      simp only [inodes, sameSb]
      split
      · rcases live_or_idle fs inum with ⟨slot, live⟩ | absent
        · rw [inode_of_live once ((lives slot inum).mpr live),
            inode_of_live accounted.once live, sameCache]
        · rw [inode_of_idle fun slot live => absent slot ((lives slot inum).mp live),
            inode_of_idle absent, sameSb, records]
      · rfl
    rw [unchanged]
    exact owned

end

theorem AccountedFor.set_din (live : Live fs slot inum) (d : Dinode) (more : Nat → Prop)
    (behind : ∀ index, (loadDinode fs.disk fs.sb inum).addr index = d.addr index ∨
    (loadDinode fs.disk fs.sb inum).addr index = 0)
    (owned : Owned blockgroups more (update (inodes fs) inum d) fs.disk) :
    AccountedFor more (setDin fs slot d) := by
  have lives (other : CacheSlot) (number : Nat) :
      Live (setDin fs slot d) other number ↔ Live fs other number := by
    obtain ⟨inum, ref, valid, -⟩ := set_din_entry fs slot other d
    constructor
    · intro after
      exact ⟨ref ▸ after.ref, valid ▸ after.valid, inum ▸ after.inum⟩
    · intro before
      exact ⟨ref ▸ before.ref, valid ▸ before.valid, inum ▸ before.inum⟩
  have once : CachedOnce (setDin fs slot d) := cached_once_set accounted.once slot _ rfl id
  constructor
  · exact accounted.layout
  · exact once
  · intro other number here
    exact accounted.inside other number ((lives other number).mp here)
  · intro other number here index
    have before := (lives other number).mp here
    by_cases same : other = slot
    · subst same
      rw [set_din_same, ← before.inum, live.inum]
      exact behind index
    · rw [set_din_other fs slot other d same]
      exact accounted.behind other number before index
  · have changed : inodes (setDin fs slot d) = update (inodes fs) inum d := by
      funext number
      by_cases same : number = inum
      · subst same
        have inside : number < (setDin fs slot d).sb.ninodes := accounted.inside slot number live
        rw [update_self, inodes, if_pos inside,
          inode_of_live once ((lives slot number).mpr live), set_din_same]
      · rw [update_of_ne same]
        have sameSb : (setDin fs slot d).sb = fs.sb := rfl
        have sameDisk : (setDin fs slot d).disk = fs.disk := rfl
        simp only [inodes, sameSb]
        split
        · rcases live_or_idle fs number with ⟨other, here⟩ | idle
          · have different : other ≠ slot := by
              rintro rfl
              exact same (here.inum.symm.trans live.inum)
            rw [inode_of_live once ((lives other number).mpr here),
              set_din_other fs slot other d different, inode_of_live accounted.once here]
          · rw [inode_of_idle fun other here => idle other ((lives other number).mp here),
              inode_of_idle idle, sameSb, sameDisk]
        · rfl
    rw [changed]
    exact owned

end
end Kept

section Geometry
variable (disk : Store Buffer)

abbrev layoutSb : Superblock := mkfsSuperblock blockgroups

theorem dblock_ne_iblock (v inum : Nat) (inside : v % ndatablocks ≠ 0) :
    dblock v layoutSb ≠ iblock inum layoutSb := by
  rw [ndatablocks_value] at inside
  rw [dblock_eq, iblock_eq]
  omega

theorem dblock_ne_bblock (v u : Nat) : dblock v layoutSb ≠ bblock u layoutSb := by
  rw [dblock_eq, bblock_eq]
  omega

theorem iblock_ne_bblock (inum u : Nat) : iblock inum layoutSb ≠ bblock u layoutSb := by
  rw [iblock_eq, bblock_eq]
  omega

theorem load_update_other (blockno : Nat) (content : Buffer) (inum : Nat)
    (different : iblock inum layoutSb ≠ blockno) :
    loadDinode (update disk blockno content) layoutSb inum = loadDinode disk layoutSb inum := by
  rw [loadDinode, loadDinode, update_of_ne different]

theorem load_write_same (inum : Nat) (d : Dinode) : loadDinode (update disk (iblock inum layoutSb)
    (writeDinode (disk (iblock inum layoutSb)) (dinodeoffset inum layoutSb) d)) layoutSb inum =
    d := by
  rw [loadDinode, update_self]
  exact read_write_dinode_same _ _ _

theorem load_write_other (inum other : Nat) (d : Dinode) (different : other ≠ inum) :
    loadDinode (update disk (iblock inum layoutSb)
    (writeDinode (disk (iblock inum layoutSb)) (dinodeoffset inum layoutSb) d)) layoutSb other =
    loadDinode disk layoutSb other := by
  by_cases same : iblock other layoutSb = iblock inum layoutSb
  · rw [loadDinode, loadDinode, same, update_self]
    apply read_write_dinode_other
    rw [iblock_eq, iblock_eq] at same
    rw [dinodeoffset_eq, dinodeoffset_eq]
    omega
  · exact load_update_other disk _ _ other same

/-- The statistics lie past the last slot the kernel uses in their block. -/
theorem load_store_stats (group used inum : Nat) :
    loadDinode (storeStats layoutSb disk group used) layoutSb inum =
    loadDinode disk layoutSb inum := by
  by_cases same : iblock inum layoutSb = statblock group layoutSb
  · rw [loadDinode, loadDinode, same, storeStats, update_self]
    apply read_dinode_congr
    intro index lower upper
    rw [iblock_eq, statblock_eq] at same
    rw [dinodeoffset_eq] at lower upper
    have beyond : statoff = 504 := by decide
    rw [writeStats, write_le_outside _ _ _ _ _ (by omega), write_le_outside _ _ _ _ _ (by omega)]
  · exact load_update_other disk _ _ inum same

theorem stats_block_other (group used blockno : Nat)
    (different : blockno ≠ statblock group layoutSb) :
    storeStats layoutSb disk group used blockno = disk blockno :=
  update_of_ne different _ _

theorem dblock_ne_statblock (v group : Nat) (inside : v % ndatablocks ≠ 0) :
    dblock v layoutSb ≠ statblock group layoutSb := by
  rw [ndatablocks_value] at inside
  rw [dblock_eq, statblock_eq]
  omega

theorem bblock_ne_statblock (u group : Nat) : bblock u layoutSb ≠ statblock group layoutSb := by
  rw [bblock_eq, statblock_eq]
  omega

end Geometry

section Operations
variable {fs after : Fs} {taken : Nat → Prop}

/-- Virtual block `v` may be handed out: it is not the first of its group, where it
would be an inode block, and the block of number `v`, which `balloc` clears in its
place, is no bitmap. -/
structure CleanBlock (v : Nat) : Prop where
  inside : v % ndatablocks ≠ 0
  notBitmap : ∀ u, bblock u layoutSb ≠ v

theorem AccountedFor.after_take (accounted : AccountedFor taken fs) (v : Nat) :
    AccountedFor taken (afterTake fs v) := by
  have layout := accounted.layout
  apply accounted.forget
  · rfl
  · rfl
  · intro inum _ index
    simp only [afterTake, layout]
    by_cases cleared : iblock inum layoutSb = v
    · right
      rw [loadDinode, cleared, update_self, read_dinode_blank]
      exact Dinode.blank_addr index
    · left
      rw [load_update_other _ _ _ inum cleared,
        load_update_other _ _ _ inum (iblock_ne_bblock inum v)]
  · intro u _
    simp only [afterTake, layout]
    by_cases cleared : dblock u layoutSb = v
    · right
      rw [cleared, update_self]
    · left
      rw [update_of_ne cleared, update_of_ne (dblock_ne_bblock u v)]

theorem taken_after_take (layout : fs.sb = layoutSb) {u v : Nat}
    (notBitmap : bblock u layoutSb ≠ v) : Taken (afterTake fs v) u ↔ Taken fs u ∨ u = v := by
  simp only [Taken, afterTake, layout]
  rw [update_of_ne notBitmap]
  by_cases group : bblock u layoutSb = bblock v layoutSb
  · rw [group, update_self, bit_set_set_bit, Bool.or_eq_true, decide_eq_true_eq]
    rw [bblock_eq, bblock_eq] at group
    have same : u % bpb = v % bpb ↔ u = v := by
      rw [bpb_value]
      omega
    rw [same, or_comm]
  · rw [update_of_ne group]
    have different : u ≠ v := fun same => group (by rw [same])
    simp [different]

theorem taken_congr (sameSb : after.sb = fs.sb) (layout : fs.sb = layoutSb)
    (bitmaps : ∀ u, after.disk (bblock u layoutSb) = fs.disk (bblock u layoutSb)) (v : Nat) :
    Taken after v ↔ Taken fs v := by
  simp only [Taken, sameSb, layout, bitmaps]

theorem AccountedFor.accounted (kept : AccountedFor (Taken fs) after) (sameSb : after.sb = fs.sb)
    (bitmaps : ∀ u, after.disk (bblock u layoutSb) = fs.disk (bblock u layoutSb)) :
    Accounted after := by
  apply kept.mark
  intro v inUse
  exact (taken_congr sameSb (sameSb ▸ kept.layout) bitmaps v).mpr inUse

theorem first_free_uint (layout : fs.sb = layoutSb) {v : Nat} (first : FirstFree fs cwd v) :
    dblock v layoutSb < 2 ^ 32 := by
  have range := first.inRange
  have size : layoutSb.size = 101500 := by decide
  rw [layout, size] at range
  rw [dblock_eq]
  omega

section
variable (accounted : Accounted fs)
include accounted

section
variable (live : Live fs slot inum)
include live

theorem fill_addr_accounted {index : Nat} (bound : index < ndirect + 1)
    (clean : (fs.icache slot).din.addr index = 0 → ∀ v, FirstFree fs cwd v → CleanBlock v)
    (filled : fillAddr fs slot index cwd = .ok after) : Accounted after := by
  rcases fill_addr_ok accounted.layout filled with ⟨-, rfl⟩ | ⟨absent, v, first, rfl⟩
  · exact accounted
  · have usable := clean absent v first
    have took := AccountedFor.after_take accounted v
    have sameCache : (afterTake fs v).icache = fs.icache := rfl
    have stillLive := (live_congr sameCache slot inum).mpr live
    have known : inodes (afterTake fs v) inum = (fs.icache slot).din := inodes_live took stillLive
    have uint := first_free_uint accounted.layout first
    have assigned := took.owned.assign v inum index bound usable.inside first.free uint
      (by rw [known]; exact absent)
    rw [known] at assigned
    have placed := took.set_din stillLive
      ((fs.icache slot).din.setAddr index (dblock v layoutSb)) _ (by
        intro other
        rcases took.behind slot inum stillLive other with same | gone
        · by_cases here : other = index
          · right
            rw [same, here]
            exact absent
          · left
            rw [same, Dinode.addr_set_other _ _ _ _ here]
            rfl
        · exact .inr gone) assigned
    apply placed.mark
    intro u was
    exact (taken_after_take accounted.layout (usable.notBitmap u)).mpr was

theorem fill_entry_accounted {index : Nat} (bound : index < nindirect)
    (present : (fs.icache slot).din.addr ndirect ≠ 0)
    (clean : refAt fs.disk (fs.icache slot).din (.entry index) = 0 →
    ∀ v, FirstFree fs cwd v → CleanBlock v) (filled : fillEntry fs slot index cwd = .ok after) :
    Accounted after := by
  rcases fill_entry_ok accounted.layout filled with ⟨-, rfl⟩ | ⟨absent, v, first, rfl⟩
  · exact accounted
  · have usable := clean (by simp only [refAt]; rw [if_neg (by omega)]; exact absent) v first
    have took := AccountedFor.after_take accounted v
    have sameCache : (afterTake fs v).icache = fs.icache := rfl
    have stillLive := (live_congr sameCache slot inum).mpr live
    have known : inodes (afterTake fs v) inum = (fs.icache slot).din := inodes_live took stillLive
    have uint := first_free_uint accounted.layout first
    have assigned := took.owned.assign_entry v inum index bound usable.inside first.free uint
      (by rw [known]; exact present)
    obtain ⟨w, inside, -, located⟩ :=
      took.owned.mapped inum (.addr ndirect) (by rw [known]; exact present)
    rw [known] at assigned located
    have located : (fs.icache slot).din.addr ndirect = dblock w layoutSb := located
    have layout : (afterTake fs v).sb = layoutSb := accounted.layout
    have stored : AccountedFor (fun block => Taken fs block ∨ block = v)
        (logWrite (afterTake fs v) ((fs.icache slot).din.addr ndirect)
        (writeLE ((afterTake fs v).disk ((fs.icache slot).din.addr ndirect))
          (sizeofUint * index) sizeofUint (dblock v layoutSb))) := by
      apply took.rewrite
      · rfl
      · rfl
      · intro other
        rw [layout]
        apply load_update_other
        rw [located]
        exact (dblock_ne_iblock w other inside).symm
      · exact assigned
    apply stored.mark
    intro u was
    have bit := (taken_after_take accounted.layout (usable.notBitmap u)).mpr was
    refine (taken_congr ?_ layout ?_ u).mpr bit
    · rfl
    intro other
    apply log_write_other
    rw [located]
    exact (dblock_ne_bblock w other).symm

theorem store_bytes_accounted {bn off : Nat} {bytes : List Byte}
    (held : refAt fs.disk (fs.icache slot).din (blockPlace bn) ≠ 0)
    (stored : storeBytes fs (refAt fs.disk (fs.icache slot).din (blockPlace bn)) off bytes =
    .ok after) : Accounted after := by
  have layout := accounted.layout
  obtain rfl := store_bytes_ok stored
  have known := inodes_live accounted live
  rw [← known] at held ⊢
  obtain ⟨w, inside, -, located⟩ := accounted.owned.mapped inum (blockPlace bn) held
  have kept : AccountedFor (Taken fs) (logWrite fs (refAt fs.disk (inodes fs inum) (blockPlace bn))
      (copyInto (fs.disk (refAt fs.disk (inodes fs inum) (blockPlace bn))) off bytes)) := by
    apply accounted.rewrite
    · rfl
    · rfl
    · intro other
      rw [layout]
      apply load_update_other
      rw [located]
      exact (dblock_ne_iblock w other inside).symm
    · exact accounted.owned.store inum (blockPlace bn) (block_place_data bn) held _
  apply kept.accounted rfl
  intro u
  apply log_write_other
  rw [located]
  exact (dblock_ne_bblock w u).symm

theorem iupdate_accounted (updated : iupdate fs slot = .ok after) :
    Accounted after ∧ after.icache = fs.icache := by
  have layout := accounted.layout
  obtain rfl := iupdate_ok updated
  rw [live.inum, layout]
  have record := load_write_same fs.disk inum (fs.icache slot).din
  have others := load_write_other fs.disk inum
  refine ⟨?_, rfl⟩
  have kept : AccountedFor (Taken fs) (logWrite fs (iblock inum layoutSb)
      (writeDinode (fs.disk (iblock inum layoutSb)) (dinodeoffset inum layoutSb)
        (fs.icache slot).din)) := by
    apply accounted.redisk
    · rfl
    · rfl
    · intro other _ idle index
      left
      rw [layout]
      apply congrArg (Dinode.addr · index)
      apply others other
      rintro rfl
      exact idle slot live
    · intro other number here index
      rw [layout]
      by_cases same : number = inum
      · subst same
        have unique := accounted.once other slot here.ref live.ref
          (here.inum.trans live.inum.symm)
        rw [unique]
        exact .inl (congrArg (Dinode.addr · index) record)
      · have unchanged := others number (fs.icache slot).din same
        have behind := accounted.behind other number here index
        rw [layout, ← unchanged] at behind
        exact behind
    · intro v inside
      left
      exact log_write_other fs _ _ _ (dblock_ne_iblock v inum inside)
  apply kept.accounted rfl
  intro u
  exact log_write_other fs _ _ _ (iblock_ne_bblock inum u).symm

end

theorem recache_accounted (sameSb : after.sb = fs.sb) (sameDisk : after.disk = fs.disk)
    (once : CachedOnce after) (lives : ∀ slot inum, Live after slot inum →
    (Live fs slot inum ∧ (after.icache slot).din = (fs.icache slot).din) ∨
    (inum < fs.sb.ninodes ∧ (∀ other, ¬ Live fs other inum) ∧
    (after.icache slot).din = loadDinode fs.disk fs.sb inum)) : Accounted after := by
  have kept := AccountedFor.recache accounted sameSb sameDisk once lives
  apply kept.accounted sameSb
  intro u
  rw [sameDisk]

theorem set_inode_accounted (slot : CacheSlot) (ip : Inode) (inum : ip.inum = (fs.icache slot).inum)
    (ref : 0 < ip.ref → 0 < (fs.icache slot).ref) (din : ip.din = (fs.icache slot).din)
    (valid : ip.valid = true → (fs.icache slot).valid = true) :
    Accounted (setInode fs slot ip) := by
  apply recache_accounted accounted
  · rfl
  · rfl
  · exact cached_once_set accounted.once slot ip inum ref
  · intro other number live
    left
    rcases live_set_inode live with ⟨rfl, still, kept, same, entry⟩ | ⟨before, entry⟩
    · rw [entry]
      exact ⟨⟨ref still, valid kept, inum.symm.trans same⟩, din⟩
    · rw [entry]
      exact ⟨before, rfl⟩

theorem iget_accounted (got : iget fs inum = .ok (slot, after)) : Accounted after := by
  rcases iget_ok got with ⟨used, -, rfl⟩ | ⟨absent, -, rfl⟩
  · exact set_inode_accounted accounted slot _ rfl (fun _ => used) rfl id
  · apply recache_accounted accounted
    · rfl
    · rfl
    · intro left right leftUsed rightUsed same
      by_cases leftHere : left = slot
      · by_cases rightHere : right = slot
        · rw [leftHere, rightHere]
        · subst leftHere
          rw [set_inode_other fs left right _ rightHere] at rightUsed same
          rw [set_inode_same] at same
          exact absurd same.symm (absent right rightUsed)
      · rw [set_inode_other fs slot left _ leftHere] at leftUsed same
        by_cases rightHere : right = slot
        · subst rightHere
          rw [set_inode_same] at same
          exact absurd same (absent left leftUsed)
        · rw [set_inode_other fs slot right _ rightHere] at rightUsed same
          exact accounted.once left right leftUsed rightUsed same
    · intro other number live
      left
      rcases live_set_inode live with ⟨-, -, valid, -⟩ | ⟨before, entry⟩
      · contradiction
      · rw [entry]
        exact ⟨before, rfl⟩

end

theorem iblock_on_disk_iff (inum : Nat) :
    iblock inum layoutSb < fssize blockgroups ↔ inum < layoutSb.ninodes := by
  have count : layoutSb.ninodes = 725 := by decide
  rw [iblock_eq, fssize_eq, blockgroups, count]
  omega

theorem ilock_accounted (accounted : Accounted fs) (locked : ilock fs slot = .ok after) :
    Accounted after := by
  have layout := accounted.layout
  obtain ⟨used, ⟨-, rfl⟩ | ⟨invalid, onDisk, -, rfl⟩⟩ := ilock_ok locked
  · exact set_inode_accounted accounted slot _ rfl (fun _ => used) rfl id
  · have inside : (fs.icache slot).inum < fs.sb.ninodes := by
      rw [layout] at onDisk ⊢
      exact (iblock_on_disk_iff _).mp onDisk
    apply recache_accounted accounted
    · rfl
    · rfl
    · exact cached_once_set accounted.once slot _ rfl id
    · intro other number live
      rcases live_set_inode live with ⟨rfl, -, -, rfl, entry⟩ | ⟨before, entry⟩
      · right
        rw [entry]
        refine ⟨inside, ?_, rfl⟩
        intro another cached
        have unique := accounted.once another other cached.ref used cached.inum
        rw [unique] at cached
        rw [cached.valid] at invalid
        contradiction
      · left
        rw [entry]
        exact ⟨before, rfl⟩

theorem relabel_accounted (accounted : Accounted fs) (live : Live fs slot inum) (d : Dinode)
    (addrs : d.addrs = (fs.icache slot).din.addrs) : Accounted (setDin fs slot d) := by
  have addr (index : Nat) : d.addr index = (fs.icache slot).din.addr index := by
    simp only [Dinode.addr, addrs]
  have kept : AccountedFor (Taken fs) (setDin fs slot d) := by
    apply AccountedFor.set_din accounted live
    · intro index
      rw [addr]
      exact accounted.behind slot inum live index
    · apply accounted.owned.frame
      · intro other
        by_cases same : other = inum
        · subst same
          rw [update_self, inodes_live accounted live]
          exact addrs
        · rw [update_of_ne same]
      · intro _ _
        rfl
  apply kept.accounted
  · rfl
  · intro u
    rfl

theorem set_din_live (live : Live fs slot inum) (d : Dinode) :
    Live (setDin fs slot d) slot inum := by
  obtain ⟨number, ref, valid, -⟩ := set_din_entry fs slot slot d
  exact ⟨ref ▸ live.ref, valid ▸ live.valid, number ▸ live.inum⟩

theorem relabel_update_accounted (accounted : Accounted fs) (live : Live fs slot inum) (d : Dinode)
    (addrs : d.addrs = (fs.icache slot).din.addrs)
    (updated : iupdate (setDin fs slot d) slot = .ok after) :
    Accounted after ∧ Live after slot inum := by
  have relabelled := relabel_accounted accounted live d addrs
  have stillLive := set_din_live live d
  obtain ⟨kept, cache⟩ := iupdate_accounted relabelled stillLive updated
  exact ⟨kept, (live_congr cache slot inum).mpr stillLive⟩

theorem grow_size_accounted (accounted : Accounted fs) {off : Nat} (live : Live fs slot inum)
    (grew : growSize fs slot off = .ok after) : Accounted after ∧ Live after slot inum := by
  rw [growSize] at grew
  exact relabel_update_accounted accounted live _ (by rfl) grew

theorem claim_inode_accounted (accounted : Accounted fs) (inum : Nat) (type : BitVec 16) :
    Accounted (claimInode fs inum type) := by
  have layout := accounted.layout
  have record := load_write_same fs.disk inum { Dinode.blank with type := type }
  have others := load_write_other fs.disk inum
  have kept : AccountedFor (Taken fs) (claimInode fs inum type) := by
    apply AccountedFor.forget accounted
    · rfl
    · rfl
    · intro other _ index
      simp only [claimInode, logWrite, layout]
      rw [load_store_stats]
      by_cases same : other = inum
      · right
        subst same
        rw [record]
        exact Dinode.blank_addr index
      · left
        rw [others other _ same]
    · intro v inside
      left
      simp only [claimInode, logWrite, layout]
      rw [stats_block_other _ _ _ _ (dblock_ne_statblock v _ inside),
        update_of_ne (dblock_ne_iblock v inum inside)]
  apply kept.accounted
  · rfl
  · intro u
    simp only [claimInode, logWrite, layout]
    rw [stats_block_other _ _ _ _ (bblock_ne_statblock u _),
      update_of_ne (iblock_ne_bblock inum u).symm]

theorem scan_inodes_found {count first : Nat}
    (found : scanInodes fs count first = .ok (some inum)) :
    first ≤ inum ∧ (loadDinode fs.disk fs.sb inum).type = 0 := by
  induction count generalizing first with
  | zero => simp [scanInodes] at found
  | succ count ih =>
    rw [scanInodes, bind_ok] at found
    obtain ⟨buf, read, found⟩ := found
    obtain ⟨-, -, rfl⟩ := bread_ok read
    split at found
    · rename_i free
      cases found
      exact ⟨le_rfl, free⟩
    · obtain ⟨later, free⟩ := ih found
      exact ⟨by omega, free⟩

theorem ialloc_claims {type : BitVec 16} (allocated : ialloc fs type cwd = .ok (slot, after)) :
    ∃ inum, (0 < fs.sb.ipbg → 0 < inum) ∧ (loadDinode fs.disk fs.sb inum).type = 0 ∧
    iget (claimInode fs inum type) inum = .ok (slot, after) := by
  rw [ialloc] at allocated
  split at allocated
  · simp only [bind_ok] at allocated
    obtain ⟨found, scanned, allocated⟩ := allocated
    cases found with
    | some inum =>
      obtain ⟨later, free⟩ := scan_inodes_found scanned
      refine ⟨inum, fun positive => ?_, free, allocated⟩
      split at later
      · exact later
      · rename_i other
        exact (Nat.mul_pos (Nat.pos_of_ne_zero other) positive).trans_le later
    | none => contradiction
  · simp only [bind_ok] at allocated
    obtain ⟨found, scanned, allocated⟩ := allocated
    cases found with
    | some inum =>
      obtain ⟨later, free⟩ := scan_inodes_found scanned
      refine ⟨inum, fun _ => ?_, free, allocated⟩
      split at later
      · exact later
      · omega
    | none =>
      simp only [bind_ok] at allocated
      obtain ⟨again, scanned, allocated⟩ := allocated
      cases again with
      | some inum =>
        obtain ⟨later, free⟩ := scan_inodes_found scanned
        exact ⟨inum, fun _ => later, free, allocated⟩
      | none => contradiction

theorem ialloc_accounted (accounted : Accounted fs) {type : BitVec 16}
    (allocated : ialloc fs type cwd = .ok (slot, after)) : Accounted after := by
  obtain ⟨inum, -, -, got⟩ := ialloc_claims allocated
  exact iget_accounted (claim_inode_accounted accounted inum type) got

def HoldsNoBlock (d : Dinode) : Prop := ∀ index, d.addr index = 0

theorem itrunc_idle (empty : HoldsNoBlock (fs.icache slot).din) :
    itrunc fs slot = growSize fs slot 0 := by
  have direct : (List.range ndirect).foldlM (freeAddr slot) fs = .ok fs := by
    apply fold_idle
    intro index _
    rw [freeAddr, if_pos (empty index)]
  rw [itrunc, direct]
  simp only [bind, Except.bind, freeIndirect]
  rw [if_pos (empty ndirect)]

theorem last_reference_live (last : lastReference (fs.icache slot) = true) :
    Live fs slot (fs.icache slot).inum := by
  simp only [lastReference, Bool.and_eq_true, decide_eq_true_eq] at last
  exact ⟨by omega, last.1.2, rfl⟩

theorem free_inode_accounted (accounted : Accounted fs) (live : Live fs slot inum)
    (empty : HoldsNoBlock (fs.icache slot).din) (freed : freeInode fs slot = .ok after) :
    Accounted after := by
  simp only [freeInode, bind_ok, itrunc_idle empty] at freed
  obtain ⟨truncated, grew, updated, wrote, result⟩ := freed
  cases result
  obtain ⟨kept, stillLive⟩ := grow_size_accounted accounted live grew
  obtain ⟨final, -⟩ := relabel_update_accounted kept stillLive _ (by rfl) wrote
  exact set_inode_accounted final slot _ rfl id rfl (by simp)

theorem iput_accounted (accounted : Accounted fs)
    (clean : lastReference (fs.icache slot) = true → HoldsNoBlock (fs.icache slot).din)
    (put : iput fs slot = .ok after) : Accounted after := by
  obtain ⟨middle, ⟨-, rfl⟩ | ⟨last, freed⟩, rfl⟩ := iput_ok put
  · exact set_inode_accounted accounted slot _ rfl (fun used => by simp only at used; omega) rfl id
  have kept := free_inode_accounted accounted (last_reference_live last) (clean last) freed
  exact set_inode_accounted kept slot _ rfl (fun used => by simp only at used; omega) rfl id

theorem iupdate_stop {stop : Stop} (stopped : iupdate fs slot = .error stop) :
    stop = .incorrectBlockno := by
  simp only [iupdate, bread, bind, Except.bind] at stopped
  split at stopped
  · rename_i failed
    simp only [reduceCtorEq, ↓reduceIte] at failed
    split at failed
    · contradiction
    · cases failed
      cases stopped
      rfl
  · contradiction

theorem iput_not_freeing
    (clean : lastReference (fs.icache slot) = true → HoldsNoBlock (fs.icache slot).din) :
    iput fs slot ≠ .error .freeingFreeBlock := by
  intro stopped
  simp only [iput, bind_error, reduceCtorEq, and_false, exists_false, or_false,
    releaseInode] at stopped
  split at stopped
  · rename_i last
    split at stopped
    · cases stopped
    · simp only [freeInode, itrunc_idle (clean last), growSize, bind_error, reduceCtorEq,
        and_false, exists_false, or_false] at stopped
      rcases stopped with first | ⟨middle, -, second⟩
      · exact absurd (iupdate_stop first) (by decide)
      · exact absurd (iupdate_stop second) (by decide)
  · contradiction

end Operations
end Xv6Hacks.BlockAccounting
