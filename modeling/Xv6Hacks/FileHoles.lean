import Xv6Hacks.AcceptedImage
import Xv6Hacks.FileSystemRuns

/-!
# Files without holes

`readi` maps blocks with `bmap`, which allocates a missing one. Reading must therefore
never meet a hole: a block below the size of an inode without an address. The kernel may
have several copies of an inode, and `HoleFree` is about all of them. It is kept as long as
`balloc` hands out a block that no inode refers to and clears none that is the indirect block
of one.
-/

namespace Xv6Hacks.FileHoles

open Function
open AcceptedImage BlockAccounting BlockAllocation BlockGroupLayout BlockOwnership ByteBuffers
open DiskFormat FileSystemRuns GuardedRuns KernelCalls KernelFs WriteSequences
open ImageContents
open Outcomes (ok_bind)

variable {v inum cwd index : Nat} {d : Dinode} {slot : CacheSlot} {fs : Fs}

def Full (disk : Store Buffer) (d : Dinode) : Prop :=
  ∀ bn, bn < blocksFor d.size.toNat → refAt disk d (blockPlace bn) ≠ 0

/-- The copies of an inode that the kernel has. -/
inductive Known (fs : Fs) (inum : Nat) : Dinode → Prop where
  | record (inside : inum < layoutSb.ninodes) : Known fs inum (loadDinode fs.disk layoutSb inum)
  | cached (slot : CacheSlot) (live : Live fs slot inum) : Known fs inum (fs.icache slot).din

structure HoleFree (fs : Fs) : Prop where
  layout : fs.sb = layoutSb
  super : readSuperblock (fs.disk 1) = layoutSb
  valid : ∀ inum d place, Known fs inum d → refAt fs.disk d place ≠ 0 →
    ∃ v, v % ndatablocks ≠ 0 ∧ v < layoutSb.size ∧ refAt fs.disk d place = dblock v layoutSb
  distinct : ∀ inum d place other e elsewhere, Known fs inum d → Known fs other e →
    refAt fs.disk d place ≠ 0 → refAt fs.disk d place = refAt fs.disk e elsewhere →
      inum = other ∧ place = elsewhere
  full : ∀ inum d, Known fs inum d → Full fs.disk d

structure Empty (d : Dinode) : Prop where
  addrs : ∀ index, d.addr index = 0
  size : d.size = 0

theorem Empty.ref_at (empty : Empty d) (disk : Store Buffer) (place : Place) :
    refAt disk d place = 0 := by
  cases place with
  | addr index => exact empty.addrs index
  | entry index => rw [refAt, if_pos (.inl (empty.addrs ndirect))]

theorem Empty.full (empty : Empty d) (disk : Store Buffer) : Full disk d := by
  intro bn below
  rw [empty.size] at below
  exact absurd below (Nat.not_lt_zero bn)

theorem empty_blank : Empty Dinode.blank := ⟨Dinode.blank_addr, rfl⟩

section Changes
variable {fs after : Fs}

section
variable (good : HoleFree fs)
include good

/-- Copies may become older ones, or empty, as long as the references of the copies stay;
where the size has changed, its blocks are there. -/
theorem HoleFree.transfer (sameSb : after.sb = fs.sb) (super : after.disk 1 = fs.disk 1)
    (refs : ∀ inum d, Known fs inum d → ∀ place, refAt after.disk d place = refAt fs.disk d place)
    (known : ∀ inum d, Known after inum d → Empty d ∨
    ∃ e, Known fs inum e ∧ d.addrs = e.addrs ∧ (d.size = e.size ∨ Full fs.disk d)) :
    HoleFree after := by
  have like {d e : Dinode} (addrs : d.addrs = e.addrs) (disk : Store Buffer) (place : Place) :
      refAt disk d place = refAt disk e place :=
    ref_at_congr disk disk e d addrs (fun _ => rfl) place
  have before {inum : Nat} {d : Dinode} (now : Known after inum d) {place : Place}
      (held : refAt after.disk d place ≠ 0) :
      ∃ e, Known fs inum e ∧ ∀ place, refAt after.disk d place = refAt fs.disk e place := by
    rcases known inum d now with empty | ⟨e, then', addrs, -⟩
    · exact absurd (empty.ref_at _ place) held
    · exact ⟨e, then', fun place => (like addrs _ place).trans (refs inum e then' place)⟩
  constructor
  · rw [sameSb]
    exact good.layout
  · rw [super]
    exact good.super
  · intro inum d place now held
    obtain ⟨e, then', same⟩ := before now held
    rw [same place] at held ⊢
    exact good.valid inum e place then' held
  · intro inum d place other e elsewhere now nowOther held equal
    obtain ⟨d', then', same⟩ := before now held
    obtain ⟨e', thenOther, sameOther⟩ := before nowOther (equal ▸ held)
    rw [same place] at held equal
    rw [sameOther elsewhere] at equal
    exact good.distinct inum d' place other e' elsewhere then' thenOther held equal
  · intro inum d now
    rcases known inum d now with empty | ⟨e, then', addrs, size | blocks⟩
    · exact empty.full _
    · intro bn below
      rw [size] at below
      rw [like addrs, refs inum e then']
      exact good.full inum e then' bn below
    · intro bn below
      rw [like addrs, refs inum e then', ← like addrs]
      exact blocks bn below

theorem HoleFree.extend (sameSb : after.sb = fs.sb) (super : after.disk 1 = fs.disk 1)
    (holder : Nat) (position : Place) (inside : v % ndatablocks ≠ 0) (range : v < layoutSb.size)
    (unused : ∀ inum d place, Known fs inum d → refAt fs.disk d place ≠ dblock v layoutSb)
    (known : ∀ inum d, Known after inum d → ∃ e, Known fs inum e ∧ d.size = e.size ∧
    ∀ place, refAt after.disk d place = refAt fs.disk e place ∨
    inum = holder ∧ place = position ∧ refAt after.disk d place = dblock v layoutSb) :
    HoleFree after := by
  constructor
  · rw [sameSb]
    exact good.layout
  · rw [super]
    exact good.super
  · intro inum d place now held
    obtain ⟨e, then', -, refs⟩ := known inum d now
    rcases refs place with same | ⟨-, -, new⟩
    · rw [same] at held ⊢
      exact good.valid inum e place then' held
    · exact ⟨v, inside, range, new⟩
  · intro inum d place other e elsewhere now nowOther held equal
    obtain ⟨d', then', -, refs⟩ := known inum d now
    obtain ⟨e', thenOther, -, refsOther⟩ := known other e nowOther
    rcases refs place with same | ⟨here, there, new⟩
    · rcases refsOther elsewhere with sameOther | ⟨-, -, newOther⟩
      · rw [same] at held equal
        rw [sameOther] at equal
        exact good.distinct inum d' place other e' elsewhere then' thenOther held equal
      · rw [same, newOther] at equal
        exact absurd equal (unused inum d' place then')
    · rcases refsOther elsewhere with sameOther | ⟨hereOther, thereOther, -⟩
      · rw [new, sameOther] at equal
        exact absurd equal.symm (unused other e' elsewhere thenOther)
      · exact ⟨here.trans hereOther.symm, there.trans thereOther.symm⟩
  · intro inum d now bn below
    obtain ⟨e, then', size, refs⟩ := known inum d now
    rw [size] at below
    rcases refs (blockPlace bn) with same | ⟨-, -, new⟩
    · rw [same]
      exact good.full inum e then' bn below
    · rw [new]
      exact dblock_positive v

theorem HoleFree.refs_kept {disk : Store Buffer} (same : ∀ v, v % ndatablocks ≠ 0 →
    (∃ inum d, Known fs inum d ∧ d.addr ndirect = dblock v layoutSb) →
    disk (dblock v layoutSb) = fs.disk (dblock v layoutSb)) (inum : Nat) (d : Dinode)
    (known : Known fs inum d) (place : Place) : refAt disk d place = refAt fs.disk d place := by
  apply ref_at_congr _ _ _ _ rfl
  intro present
  obtain ⟨v, inside, -, located⟩ := good.valid inum d (.addr ndirect) known present
  have located : d.addr ndirect = dblock v layoutSb := located
  rw [located]
  exact same v inside ⟨inum, d, known, located⟩

theorem HoleFree.recache (sameSb : after.sb = fs.sb) (sameDisk : after.disk = fs.disk)
    (lives : ∀ slot inum, Live after slot inum → Known fs inum (after.icache slot).din) :
    HoleFree after := by
  apply good.transfer sameSb (by rw [sameDisk])
  · intro inum d _ place
    rw [sameDisk]
  · intro inum d now
    right
    cases now with
    | record inside =>
      rw [sameDisk]
      exact ⟨_, Known.record inside, rfl, .inl rfl⟩
    | cached slot live => exact ⟨_, lives slot inum live, rfl, .inl rfl⟩

theorem HoleFree.redisk (sameSb : after.sb = fs.sb) (sameCache : after.icache = fs.icache)
    (super : after.disk 1 = fs.disk 1) (records : ∀ inum, inum < layoutSb.ninodes →
    Empty (loadDinode after.disk layoutSb inum) ∨
    Known fs inum (loadDinode after.disk layoutSb inum)) (same : ∀ v, v % ndatablocks ≠ 0 →
    (∃ inum d, Known fs inum d ∧ d.addr ndirect = dblock v layoutSb) →
    after.disk (dblock v layoutSb) = fs.disk (dblock v layoutSb)) : HoleFree after := by
  apply good.transfer sameSb super (good.refs_kept same)
  intro inum d now
  cases now with
  | record inside =>
    rcases records inum inside with empty | known
    · exact .inl empty
    · exact .inr ⟨_, known, rfl, .inl rfl⟩
  | cached slot live =>
    right
    rw [sameCache]
    exact ⟨_, Known.cached slot ((live_congr sameCache slot inum).mp live), rfl, .inl rfl⟩

theorem HoleFree.set_inode (slot : CacheSlot) (ip : Inode) (inum : ip.inum = (fs.icache slot).inum)
    (ref : 0 < ip.ref → 0 < (fs.icache slot).ref) (din : ip.din = (fs.icache slot).din)
    (valid : ip.valid = true → (fs.icache slot).valid = true) : HoleFree (setInode fs slot ip) := by
  refine good.recache rfl rfl ?_
  intro other number live
  rcases live_set_inode live with ⟨rfl, still, kept, same, entry⟩ | ⟨before, entry⟩
  · rw [entry, din]
    exact Known.cached other ⟨ref still, valid kept, inum.symm.trans same⟩
  · rw [entry]
    exact Known.cached other before

end
end Changes

section Cache
variable {fs after : Fs}

end Cache

/-- Virtual block `v` does no harm when it is handed out: its physical block is a data
block that no inode refers to, and the block of number `v`, which `balloc` clears in its
place, is neither the superblock nor the indirect block of an inode. -/
structure Usable (fs : Fs) (v : Nat) : Prop where
  inside : v % ndatablocks ≠ 0
  unused : ∀ inum d place, Known fs inum d → refAt fs.disk d place ≠ dblock v layoutSb
  notSuper : v ≠ 1
  notIndirect : ∀ inum d, Known fs inum d → d.addr ndirect ≠ v

section Allocating
variable {fs after : Fs}

theorem dblock_ne_self (v : Nat) : dblock v layoutSb ≠ v := by
  rw [dblock_eq]
  omega

theorem bblock_ne_super (v : Nat) : bblock v layoutSb ≠ 1 := by
  rw [bblock_eq]
  omega

theorem after_take_record (layout : fs.sb = layoutSb) (v inum : Nat) :
    Empty (loadDinode (afterTake fs v).disk layoutSb inum) ∨
    loadDinode (afterTake fs v).disk layoutSb inum = loadDinode fs.disk layoutSb inum := by
  by_cases cleared : iblock inum layoutSb = v
  · left
    have blank : (afterTake fs v).disk v = blankBlock := update_self _ _ _
    rw [loadDinode, cleared, blank, read_dinode_blank]
    exact empty_blank
  · right
    rw [loadDinode, loadDinode, after_take_block layout cleared (iblock_ne_bblock inum v)]

theorem after_take_known (layout : fs.sb = layoutSb) (known : Known (afterTake fs v) inum d) :
    Empty d ∨ Known fs inum d := by
  cases known with
  | record inside =>
    rcases after_take_record layout v inum with empty | same
    · exact .inl empty
    · right
      rw [same]
      exact Known.record inside
  | cached slot live => exact .inr (Known.cached slot ⟨live.ref, live.valid, live.inum⟩)

section
variable (good : HoleFree fs) (usable : Usable fs v)
include good usable

theorem after_take_refs (inum : Nat) (d : Dinode) (known : Known fs inum d) (place : Place) :
    refAt (afterTake fs v).disk d place = refAt fs.disk d place := by
  apply good.refs_kept _ inum d known place
  rintro w inside ⟨holder, e, holds, located⟩
  apply after_take_block good.layout
  · rw [← located]
    exact usable.notIndirect holder e holds
  · exact dblock_ne_bblock w v

theorem after_take_hole_free : HoleFree (afterTake fs v) := by
  refine good.transfer rfl ?_ (after_take_refs good usable) ?_
  · exact after_take_block good.layout usable.notSuper.symm (bblock_ne_super v).symm
  · intro inum d now
    rcases after_take_known good.layout now with empty | known
    · exact .inl empty
    · exact .inr ⟨d, known, rfl, .inl rfl⟩

theorem after_take_unused (inum : Nat) (d : Dinode) (place : Place)
    (known : Known (afterTake fs v) inum d) :
    refAt (afterTake fs v).disk d place ≠ dblock v layoutSb := by
  rcases after_take_known good.layout known with empty | before
  · rw [empty.ref_at]
    exact (dblock_positive v).symm
  · rw [after_take_refs good usable inum d before]
    exact usable.unused inum d place before

end

theorem set_din_known {e : Dinode} (known : Known (setDin fs slot d) inum e) :
    Known fs inum e ∨ e = d ∧ Live fs slot inum := by
  cases known with
  | record inside => exact .inl (Known.record inside)
  | cached other live =>
    obtain ⟨number, ref, valid, -⟩ := set_din_entry fs slot other d
    have before : Live fs other inum := ⟨ref ▸ live.ref, valid ▸ live.valid, number ▸ live.inum⟩
    by_cases here : other = slot
    · right
      subst here
      rw [set_din_same]
      exact ⟨rfl, before⟩
    · left
      rw [set_din_other fs slot other d here]
      exact Known.cached other before

/-- The inode in a cache entry keeps its size and the blocks it has. -/
structure Kept (fs after : Fs) (slot : CacheSlot) : Prop where
  size : (after.icache slot).din.size = (fs.icache slot).din.size
  blocks : ∀ bn, refAt fs.disk (fs.icache slot).din (blockPlace bn) ≠ 0 →
    refAt after.disk (after.icache slot).din (blockPlace bn) ≠ 0

theorem Kept.refl (fs : Fs) (slot : CacheSlot) : Kept fs fs slot := ⟨rfl, fun _ held => held⟩

theorem Kept.trans {middle : Fs} (first : Kept fs middle slot) (second : Kept middle after slot) :
    Kept fs after slot :=
  ⟨second.size.trans first.size, fun bn held => second.blocks bn (first.blocks bn held)⟩

/-- What `bmap` needs of the block it takes for an entry of `addrs[]`: an indirect block is
blank as well. -/
def AddrGuard (fs : Fs) (slot : CacheSlot) (index cwd : Nat) : Prop :=
  (fs.icache slot).din.addr index = 0 → ∀ v, FirstFree fs cwd v →
    Usable fs v ∧ (index = ndirect → fs.disk (dblock v layoutSb) = blankBlock)

theorem fill_addr_hole_free (good : HoleFree fs) (live : Live fs slot inum)
    (bound : index < ndirect + 1) (guarded : AddrGuard fs slot index cwd)
    (filled : fillAddr fs slot index cwd = .ok after) : HoleFree after ∧ Kept fs after slot := by
  rcases fill_addr_ok good.layout filled with ⟨-, rfl⟩ | ⟨absent, v, first, rfl⟩
  · exact ⟨good, Kept.refl _ slot⟩
  · obtain ⟨usable, blank⟩ := guarded absent v first
    have uint := first_free_uint good.layout first
    have range := first.inRange
    rw [good.layout] at range
    have refs (place : Place) :
        refAt (afterTake fs v).disk
            ((fs.icache slot).din.setAddr index (dblock v layoutSb)) place =
          refAt (afterTake fs v).disk (fs.icache slot).din place ∨
        place = .addr index ∧ refAt (afterTake fs v).disk
            ((fs.icache slot).din.setAddr index (dblock v layoutSb)) place = dblock v layoutSb := by
      by_cases added : place = .addr index
      · right
        refine ⟨added, ?_⟩
        rw [added]
        exact Dinode.addr_set_same _ _ _ bound uint
      · left
        by_cases direct : index < ndirect
        · exact ref_at_set_direct _ _ _ _ direct place added
        · obtain rfl : index = ndirect := by omega
          apply ref_at_set_indirect _ _ _ uint absent _ place added
          exact (after_take_block good.layout (dblock_ne_self v) (dblock_ne_bblock v v)).trans
            (blank rfl)
    constructor
    · refine (after_take_hole_free good usable).extend rfl rfl inum (.addr index) usable.inside
        range (after_take_unused good usable) ?_
      intro number e now
      rcases set_din_known now with before | ⟨rfl, here⟩
      · exact ⟨e, before, rfl, fun _ => .inl rfl⟩
      · refine ⟨((afterTake fs v).icache slot).din, Known.cached slot here, rfl, ?_⟩
        intro place
        rcases refs place with same | ⟨added, new⟩
        · exact .inl same
        · exact .inr ⟨here.inum.symm.trans live.inum, added, new⟩
    · constructor
      · rw [set_din_same]
        rfl
      · intro bn held
        rw [set_din_same]
        intro gone
        rcases refs (blockPlace bn) with same | ⟨-, new⟩
        · rw [after_take_refs good usable inum _ (Known.cached slot live)] at same
          exact held (same.symm.trans gone)
        · exact dblock_positive v (new.symm.trans gone)

def EntryGuard (fs : Fs) (slot : CacheSlot) (index cwd : Nat) : Prop :=
  refAt fs.disk (fs.icache slot).din (.entry index) = 0 → ∀ v, FirstFree fs cwd v → Usable fs v

section
variable (good : HoleFree fs) (live : Live fs slot inum)
include good live

theorem HoleFree.with_entry (bound : index < nindirect)
    (present : (fs.icache slot).din.addr ndirect ≠ 0) (inside : v % ndatablocks ≠ 0)
    (range : v < layoutSb.size) (uint : dblock v layoutSb < 2 ^ 32)
    (unused : ∀ inum d place, Known fs inum d → refAt fs.disk d place ≠ dblock v layoutSb) :
    HoleFree (logWrite fs ((fs.icache slot).din.addr ndirect)
    (writeLE (fs.disk ((fs.icache slot).din.addr ndirect)) (sizeofUint * index) sizeofUint
    (dblock v layoutSb))) := by
  have holds := Known.cached slot live
  obtain ⟨w, valid, -, located⟩ := good.valid inum _ (.addr ndirect) holds present
  have located : (fs.icache slot).din.addr ndirect = dblock w layoutSb := located
  have disk : (logWrite fs ((fs.icache slot).din.addr ndirect)
      (writeLE (fs.disk ((fs.icache slot).din.addr ndirect)) (sizeofUint * index) sizeofUint
        (dblock v layoutSb))).disk =
      withEntry fs.disk ((fs.icache slot).din.addr ndirect) index (dblock v layoutSb) := rfl
  refine good.extend rfl ?_ inum (.entry index) inside range unused ?_
  · apply log_write_other
    rw [located, dblock_eq]
    omega
  · intro number e now
    have before : Known fs number e := by
      cases now with
      | record inside' =>
        simp only [logWrite]
        rw [load_update_other _ _ _ _ (by rw [located]; exact (dblock_ne_iblock w _ valid).symm)]
        exact Known.record inside'
      | cached other here => exact Known.cached other ⟨here.ref, here.valid, here.inum⟩
    refine ⟨e, before, rfl, ?_⟩
    intro place
    rw [disk]
    by_cases same : e.addr ndirect = (fs.icache slot).din.addr ndirect
    · rw [← same] at present ⊢
      by_cases here : place = .entry index
      · right
        have owner := good.distinct number e (.addr ndirect) inum _ (.addr ndirect) before holds
          present same
        refine ⟨owner.1, here, ?_⟩
        rw [here]
        exact ref_at_with_entry present bound uint
      · left
        exact ref_at_with_entry_other _ _ _ _ here
    · left
      apply ref_at_congr _ _ _ _ rfl
      intro _
      exact update_of_ne same _ _

theorem fill_entry_hole_free (bound : index < nindirect)
    (present : (fs.icache slot).din.addr ndirect ≠ 0) (guarded : EntryGuard fs slot index cwd)
    (filled : fillEntry fs slot index cwd = .ok after) : HoleFree after ∧ Kept fs after slot := by
  rcases fill_entry_ok good.layout filled with ⟨-, rfl⟩ | ⟨absent, v, first, rfl⟩
  · exact ⟨good, Kept.refl _ slot⟩
  · have usable := guarded (by rw [refAt, if_neg (by omega)]; exact absent) v first
    have range := first.inRange
    rw [good.layout] at range
    have still : Live (afterTake fs v) slot inum := ⟨live.ref, live.valid, live.inum⟩
    have uint := first_free_uint good.layout first
    refine ⟨(after_take_hole_free good usable).with_entry still bound present usable.inside range
      uint (after_take_unused good usable), rfl, ?_⟩
    intro bn held gone
    by_cases here : blockPlace bn = .entry index
    · rw [here] at gone
      have added := @ref_at_with_entry (afterTake fs v).disk _ _ _ present bound uint
      exact dblock_positive v (added.symm.trans gone)
    · have same := ref_at_with_entry_other (afterTake fs v).disk (fs.icache slot).din index
        (dblock v layoutSb) here
      rw [after_take_refs good usable inum _ (Known.cached slot live)] at same
      exact held (same.symm.trans gone)

theorem store_bytes_hole_free {bn off : Nat} {bytes : List Byte} (held : refAt fs.disk (fs.icache slot).din (blockPlace bn) ≠ 0)
    (stored : storeBytes fs (refAt fs.disk (fs.icache slot).din (blockPlace bn)) off bytes =
    .ok after) : HoleFree after ∧ Kept fs after slot := by
  have holds := Known.cached slot live
  obtain ⟨w, valid, -, located⟩ := good.valid inum _ (blockPlace bn) holds held
  obtain rfl := store_bytes_ok stored
  -- A data block is not the indirect block of any inode.
  have same (u : Nat) (_ : u % ndatablocks ≠ 0)
      (indirect : ∃ other e, Known fs other e ∧ e.addr ndirect = dblock u layoutSb) :
      (logWrite fs (refAt fs.disk (fs.icache slot).din (blockPlace bn))
        (copyInto (fs.disk (refAt fs.disk (fs.icache slot).din (blockPlace bn))) off bytes)).disk
          (dblock u layoutSb) = fs.disk (dblock u layoutSb) := by
    obtain ⟨other, e, known, place⟩ := indirect
    apply log_write_other
    intro clash
    have equal := good.distinct inum _ (blockPlace bn) other e (.addr ndirect) holds known held
      (clash.symm.trans place.symm)
    exact block_place_data bn equal.2
  constructor
  · refine good.redisk rfl rfl ?_ ?_ same
    · apply log_write_other
      rw [located, dblock_eq]
      omega
    · intro other inside
      right
      simp only [logWrite]
      rw [load_update_other _ _ _ _ (by rw [located]; exact (dblock_ne_iblock w _ valid).symm)]
      exact Known.record inside
  · refine ⟨rfl, ?_⟩
    intro other present
    exact (good.refs_kept same inum _ holds (blockPlace other)).symm ▸ present

end
end Allocating

section Updating
variable {fs after : Fs}

end Updating

section Writing
variable {fs after : Fs} {slot : CacheSlot} {cwd : Nat}

def BmapGuard (fs : Fs) (slot : CacheSlot) (bn cwd : Nat) : Prop :=
  if bn < ndirect then AddrGuard fs slot bn cwd
  else AddrGuard fs slot ndirect cwd ∧ ∀ middle, fillAddr fs slot ndirect cwd = .ok middle →
    EntryGuard middle slot (bn - ndirect) cwd

theorem bmap_hole_free {bn p : Nat} (good : HoleFree fs) (holding : Holding fs slot)
    (guarded : BmapGuard fs slot bn cwd) (mapped : bmap fs slot bn cwd = .ok (p, after)) :
    HoleFree after ∧ Kept fs after slot := by
  have live := locked_live holding.held
  rw [BmapGuard] at guarded
  obtain ⟨-, ⟨direct, first⟩ | ⟨beyond, inside, middle, first, second⟩⟩ := bmap_ok mapped
  · rw [if_pos direct] at guarded
    exact fill_addr_hole_free good live (by omega) guarded first
  · rw [if_neg beyond] at guarded
    obtain ⟨middleGood, kept⟩ :=
      fill_addr_hole_free good live ndirect.lt_succ_self guarded.1 first
    obtain ⟨still, indirect⟩ := fill_addr_holding holding ndirect.lt_succ_self first
    rcases fill_entry_hole_free middleGood (locked_live still.held) inside indirect
      (guarded.2 middle first) second with ⟨final, more⟩
    exact ⟨final, kept.trans more⟩

/-- Every block that the loop of `writei` takes meets its guard. -/
def WriteGuard (fs : Fs) (slot : CacheSlot) (src : List Byte) (off cwd : Nat) : Prop :=
  if src = [] then True
  else BmapGuard fs slot (off / bsize) cwd ∧
    ∀ addr mapped stored, bmap fs slot (off / bsize) cwd = .ok (addr, mapped) →
      storeBytes mapped addr (off % bsize) (src.take (min src.length (bsize - off % bsize))) =
        .ok stored →
      WriteGuard stored slot (src.drop (min src.length (bsize - off % bsize)))
        (off + min src.length (bsize - off % bsize)) cwd
termination_by src.length
decreasing_by
  have room := in_block_room off
  have nonempty := List.length_pos_iff.mpr ‹src ≠ []›
  simp only [List.length_drop]
  omega

def MappedBelow (fs : Fs) (slot : CacheSlot) (off : Nat) : Prop :=
  ∀ bn, bn * bsize < off → refAt fs.disk (fs.icache slot).din (blockPlace bn) ≠ 0

structure Looping (cwd stop : Nat) (slot : CacheSlot) (fs : Fs) (src : List Byte) (off : Nat) :
    Prop where
  good : HoleFree fs
  holding : Holding fs slot
  below : MappedBelow fs slot off
  guarded : WriteGuard fs slot src off cwd
  stop : off + src.length = stop

theorem Looping.round {stop : Nat} (fs : Fs) (src : List Byte) (off addr : Nat) (mapped stored : Fs)
    (more : src ≠ []) (looping : Looping cwd stop slot fs src off)
    (first : bmap fs slot (off / bsize) cwd = .ok (addr, mapped))
    (second : storeBytes mapped addr (off % bsize)
    (src.take (min src.length (bsize - off % bsize))) = .ok stored) :
    Looping cwd stop slot stored (src.drop (min src.length (bsize - off % bsize)))
    (off + min src.length (bsize - off % bsize)) := by
  have guarded := looping.guarded
  rw [WriteGuard, if_neg more] at guarded
  obtain ⟨good, kept⟩ := bmap_hole_free looping.good looping.holding guarded.1 first
  have next := guarded.2 addr mapped stored first second
  obtain ⟨-, middle, present, rfl⟩ := bmap_is_run looping.holding first
  obtain ⟨final, same⟩ := store_bytes_hole_free good (locked_live middle.held) present second
  refine ⟨final, (store_bytes_is_step middle present second).2, ?_, next, ?_⟩
  · intro bn inside
    by_cases last : bn = off / bsize
    · rw [last]
      exact same.blocks _ present
    · apply (kept.trans same).blocks
      apply looping.below
      simp only [bsize] at inside last ⊢
      omega
  · have stop := looping.stop
    rw [List.length_drop]
    omega

end Writing

/-- What freeing blocks of one inode may change: the bitmaps, and the addresses in its
cache entry, which disappear. -/
structure Freeing (slot : CacheSlot) (fs after : Fs) : Prop where
  sameSb : after.sb = fs.sb
  others : ∀ other, other ≠ slot → after.icache other = fs.icache other
  entry : (after.icache slot).inum = (fs.icache slot).inum ∧
    (after.icache slot).ref = (fs.icache slot).ref ∧
    (after.icache slot).valid = (fs.icache slot).valid
  addrs : ∀ index, (fs.icache slot).din.addr index = 0 → (after.icache slot).din.addr index = 0
  blocks : ∀ blockno, (∀ u, blockno ≠ bblock u layoutSb) → after.disk blockno = fs.disk blockno

theorem Freeing.refl (slot : CacheSlot) (fs : Fs) : Freeing slot fs fs :=
  ⟨rfl, fun _ _ => rfl, ⟨rfl, rfl, rfl⟩, fun _ zero => zero, fun _ _ => rfl⟩

theorem Freeing.trans {middle after : Fs} (first : Freeing slot fs middle)
    (second : Freeing slot middle after) : Freeing slot fs after where
  sameSb := second.sameSb.trans first.sameSb
  others := fun other different =>
    (second.others other different).trans (first.others other different)
  entry := ⟨second.entry.1.trans first.entry.1, second.entry.2.1.trans first.entry.2.1,
    second.entry.2.2.trans first.entry.2.2⟩
  addrs := fun index zero => second.addrs index (first.addrs index zero)
  blocks := fun blockno other => (second.blocks blockno other).trans (first.blocks blockno other)

section Truncating
variable {fs after : Fs} {slot : CacheSlot}

end Truncating

/-- The calls of the inode layer; `writei` and `itrunc` are whole calls on a locked inode. -/
inductive Call where
  | ialloc (type : BitVec 16) (cwd : Nat)
  | iget (inum : Nat)
  | idup (slot : CacheSlot)
  | ilock (slot : CacheSlot)
  | iunlock (slot : CacheSlot)
  | iput (slot : CacheSlot)
  | setFields (slot : CacheSlot) (major minor nlink : BitVec 16)
  | writei (slot : CacheSlot) (src : List Byte) (off cwd : Nat)
  | itrunc (slot : CacheSlot)

def Call.step (device : BitVec 16 → Option Int) (fs : Fs) : Call → Except Stop Fs
  | .ialloc type cwd => FileSystemRuns.step fs (.ialloc type cwd)
  | .iget inum => FileSystemRuns.step fs (.iget inum)
  | .idup slot => FileSystemRuns.step fs (.idup slot)
  | .ilock slot => FileSystemRuns.step fs (.ilock slot)
  | .iunlock slot => FileSystemRuns.step fs (.iunlock slot)
  | .iput slot => FileSystemRuns.step fs (.iput slot)
  | .setFields slot major minor nlink => FileSystemRuns.step fs (.setFields slot major minor nlink)
  | .writei slot src off cwd =>
    if locked (fs.icache slot) = true then do
      let (_, fs) ← KernelFs.writei fs device slot src off cwd
      .ok fs
    else .error .notLocked
  | .itrunc slot =>
    if locked (fs.icache slot) = true then KernelFs.itrunc fs slot else .error .notLocked

def Call.next (device : BitVec 16 → Option Int) (fs : Fs) (call : Call) : Option Fs :=
  (call.step device fs).toOption

theorem next_some {device : BitVec 16 → Option Int} {after : Fs} {call : Call} :
    call.next device fs = some after ↔ call.step device fs = .ok after := by
  rw [Call.next]
  cases call.step device fs with
  | ok result => simp [Except.toOption]
  | error stop => simp [Except.toOption]

def Harmless (fs : Fs) : Call → Prop
  | .writei slot src off cwd => WriteGuard fs slot src off cwd
  | _ => True

def readLoop (fs : Fs) (slot : CacheSlot) (n off cwd : Nat) : Except Stop (List Byte × Fs) :=
  if n = 0 then .ok ([], fs)
  else do
    let (addr, fs) ← bmap fs slot (off / bsize) cwd
    let buf ← bread fs none addr
    let m := min n (bsize - off % bsize)
    let (bytes, fs) ← readLoop fs slot (n - m) (off + m) cwd
    .ok ((List.range m).map (fun i => buf (off % bsize + i)) ++ bytes, fs)
termination_by n
decreasing_by
  have room := in_block_room off
  omega

/-- `device` is the result of the device's own read function, if there is one. -/
def readi (fs : Fs) (device : BitVec 16 → Option Int) (slot : CacheSlot) (off n cwd : Nat) :
    Except Stop (Int × List Byte × Fs) := do
  let din := (fs.icache slot).din
  if din.type = tDev then .ok ((device din.major).getD (-1), [], fs)
  else if din.size.toNat < off ∨ 2 ^ 32 ≤ off + n then .ok (-1, [], fs)
  else
    let n := if din.size.toNat < off + n then din.size.toNat - off else n
    let (bytes, fs) ← readLoop fs slot n off cwd
    .ok (n, bytes, fs)

section Reading
variable {fs : Fs} {slot : CacheSlot}

end Reading

section Booting
open ImageConsistency (view)
open MkfsInodes

variable {files : List Mkfs.InputFile} {image : Mkfs.Image}

section
variable (accepted : Mkfs.mkfs files = some image)
include accepted

end

end Booting
end Xv6Hacks.FileHoles
