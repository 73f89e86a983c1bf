import Xv6Hacks.BlockAccounting

/-!
# What `balloc` and `bfree` do to the disk

`balloc` marks the bit of virtual block `v`, clears the disk block whose number is `v`
and hands out the physical block `DBLOCK(v)`. `bfree` is given the physical number and
uses it as a virtual one. The two results say when the caller still gets a clean block
and nothing else changes, and that a block given back at once never restores the bitmap.
-/

namespace Xv6Hacks.BlockFrames

open Function
open BlockAccounting BlockAllocation BlockGroupLayout ByteBuffers DiskFormat GuardedRuns KernelFs

def SameBlock (left right : Buffer) : Prop := ∀ index, index < bsize → left index = right index

theorem same_block_bit {left right : Buffer} (same : SameBlock left right) {bit : Nat}
    (small : bit < bitsperblock) : bitSet left bit = bitSet right bit := by
  have inside : bit / 8 < bsize := by
    have width : bitsperblock = 4096 := by decide
    have size : bsize = 512 := by decide
    omega
  rw [bit_set_eq, bit_set_eq, same _ inside]

theorem blank_bit (bit : Nat) : bitSet blankBlock bit = false := by
  rw [bit_set_eq]
  simp [blankBlock]

section Layout
variable {fs : Fs} (layout : fs.sb = layoutSb)
include layout

theorem balloc_returns {v : Nat} (inside : v < fs.sb.size) (free : ¬ Taken fs v) (cwd : Nat) :
    ∃ u, FirstFree fs cwd u ∧ balloc fs none cwd = .ok (dblock u fs.sb, afterTake fs u) := by
  rcases balloc_scans layout (fun u => (Option.some_ne_none _).symm) cwd with
    ⟨u, first, allocated⟩ | ⟨full, -⟩
  · refine ⟨u, first, ?_⟩
    rw [allocated]
    exact take_block_returns layout (Option.some_ne_none _).symm (Option.some_ne_none _).symm
      first.inRange
  · exact absurd (full v inside) free

theorem dblock_gt (v : Nat) : v < dblock v fs.sb := by
  rw [layout, dblock_eq]
  omega

theorem after_take_handed_out (v : Nat) :
    (afterTake fs v).disk (dblock v fs.sb) = fs.disk (dblock v fs.sb) := by
  have apart : dblock v fs.sb ≠ bblock v fs.sb := by
    rw [layout]
    exact dblock_ne_bblock v v
  have later := dblock_gt layout v
  simp only [afterTake]
  rw [update_of_ne (by omega), update_of_ne apart]

end Layout

/-- `balloc` handed out `p`: its bytes are zero afterwards, and of the other blocks only
the bitmap block in which the bit was set has changed. -/
def CleanAllocation (fs after : Fs) (bitmap p : Nat) : Prop :=
  SameBlock (after.disk p) blankBlock ∧
    ∀ blockno, blockno ≠ p → blockno ≠ bitmap → SameBlock (after.disk blockno) (fs.disk blockno)

/-- The block to be handed out is zero already, and so is the block that is cleared in
its place, unless that one is the bitmap block. -/
def AlreadyClean (fs : Fs) (v : Nat) : Prop :=
  SameBlock (fs.disk (dblock v fs.sb)) blankBlock ∧
    (v = bblock v fs.sb ∨ SameBlock (fs.disk v) blankBlock)

variable {fs : Fs}

theorem after_take_clean_iff (layout : fs.sb = layoutSb) (v : Nat) :
    CleanAllocation fs (afterTake fs v) (bblock v fs.sb) (dblock v fs.sb) ↔ AlreadyClean fs v := by
  have later := dblock_gt layout v
  unfold CleanAllocation AlreadyClean
  rw [after_take_handed_out layout v]
  apply and_congr_right
  intro _
  constructor
  · intro unchanged
    by_cases bitmap : v = bblock v fs.sb
    · exact .inl bitmap
    · right
      have same := unchanged v (by omega) bitmap
      simp only [afterTake, update_self] at same
      intro index inside
      exact (same index inside).symm
  · intro harmless blockno notHanded notBitmap index inside
    simp only [afterTake]
    by_cases cleared : blockno = v
    · subst cleared
      rw [update_self]
      rcases harmless with isBitmap | zero
      · exact absurd isBitmap notBitmap
      · exact (zero index inside).symm
    · rw [update_of_ne cleared, update_of_ne notBitmap]

/-- While a bit is clear `balloc` returns, for every current directory. The block is
clean and the rest untouched exactly when nothing had to be cleared. -/
theorem balloc_clean_iff (fs : Fs) (layout : fs.sb = layoutSb) (cwd : Nat)
    (clear : ∃ v, v < fs.sb.size ∧ ¬ Taken fs v) :
    ∃ v after, FirstFree fs cwd v ∧ balloc fs none cwd = .ok (dblock v fs.sb, after) ∧
      (CleanAllocation fs after (bblock v fs.sb) (dblock v fs.sb) ↔ AlreadyClean fs v) := by
  obtain ⟨v, inside, free⟩ := clear
  obtain ⟨u, first, allocated⟩ := balloc_returns layout inside free cwd
  exact ⟨u, _, first, allocated, after_take_clean_iff layout u⟩

def emptyCache : CacheSlot → Inode :=
  fun _ => { inum := 0, ref := 0, busy := false, valid := false, din := Dinode.blank }

def bootBlockDisk : Fs where
  sb := layoutSb
  disk := update (fun _ => blankBlock) 0 (update blankBlock 0 1)
  icache := emptyCache

theorem boot_block_disk_clear (v : Nat) : ¬ Taken bootBlockDisk v := by
  have apart : bblock v layoutSb ≠ 0 := by
    rw [bblock_eq]
    omega
  have blank : bootBlockDisk.disk (bblock v bootBlockDisk.sb) = blankBlock := by
    simp only [bootBlockDisk]
    rw [update_of_ne apart]
  unfold Taken
  rw [blank, blank_bit]
  exact Bool.false_ne_true

theorem boot_block_disk_allocates : (∃ v, v < bootBlockDisk.sb.size ∧ ¬ Taken bootBlockDisk v) ∧
      ∃ v after, FirstFree bootBlockDisk rootino v ∧
        balloc bootBlockDisk none rootino = .ok (dblock v bootBlockDisk.sb, after) ∧
        (CleanAllocation bootBlockDisk after (bblock v bootBlockDisk.sb)
          (dblock v bootBlockDisk.sb) ↔ AlreadyClean bootBlockDisk v) :=
  ⟨⟨0, by decide, boot_block_disk_clear 0⟩,
    balloc_clean_iff bootBlockDisk rfl rootino ⟨0, by decide, boot_block_disk_clear 0⟩⟩

theorem first_free_zero {cwd v : Nat} (start : searchStart fs cwd = 0) (free : ¬ Taken fs 0)
    (first : FirstFree fs cwd v) : v = 0 := by
  by_contra later
  rcases first.first with found | found
  · exact free (found.2 0 (by omega) (by omega))
  · exact free (found.2 0 (by omega))

/-- The first allocation on that disk erases the boot block. -/
theorem balloc_erases_boot_block :
    ¬ ∀ fs : Fs, fs.sb = layoutSb → ∀ cwd, (∃ v, v < fs.sb.size ∧ ¬ Taken fs v) →
      ∃ v after, FirstFree fs cwd v ∧ balloc fs none cwd = .ok (dblock v fs.sb, after) ∧
        CleanAllocation fs after (bblock v fs.sb) (dblock v fs.sb) := by
  intro always
  obtain ⟨v, after, first, allocated, clean⟩ := always bootBlockDisk rfl rootino
    ⟨0, by decide, boot_block_disk_clear 0⟩
  have zero := first_free_zero (by decide) (boot_block_disk_clear 0) first
  subst zero
  obtain ⟨u, again, same⟩ := @balloc_returns bootBlockDisk rfl 0 (by decide)
    (boot_block_disk_clear 0) rootino
  have also := first_free_zero (by decide) (boot_block_disk_clear 0) again
  subst also
  rw [same] at allocated
  cases allocated
  have already := (@after_take_clean_iff bootBlockDisk rfl 0).mp clean
  rcases already.2 with bitmap | zero
  · exact absurd bitmap (by decide)
  · have byte := zero 0 (by decide)
    exact absurd byte (by decide)

def bitmapBlock (group : Nat) : Nat := bblock (group * bpb) layoutSb

theorem bitmap_block_eq (group : Nat) : bitmapBlock group = group * 4065 + 32 := by
  rw [bitmapBlock, bblock_eq, bpb_value]
  omega

def Full (fs : Fs) : Prop :=
  ∀ group, group < blockgroups → ∀ bit, bit < ndatablocks →
    bitSet (fs.disk (bitmapBlock group)) bit = true

theorem full_iff_taken (layout : fs.sb = layoutSb) :
    Full fs ↔ ∀ v, v < fs.sb.size → Taken fs v := by
  have groups : blockgroups = 25 := by decide
  have size : fs.sb.size = 101500 := by
    rw [layout]
    decide
  have width : ndatablocks = bpb := rfl
  have place (group bit : Nat) (small : bit < bpb) :
      Taken fs (group * bpb + bit) ↔ bitSet (fs.disk (bitmapBlock group)) bit = true := by
    rw [taken_in_group layout group bit small, layout]
    rfl
  constructor
  · intro full v inside
    have small : v % bpb < bpb := Nat.mod_lt v (by decide)
    have whole : v = v / bpb * bpb + v % bpb := by
      rw [bpb_value]
      omega
    rw [whole, place _ _ small]
    apply full _ _ _ small
    rw [bpb_value]
    omega
  · intro taken group inside bit small
    rw [← place group bit small]
    apply taken
    rw [width, bpb_value] at small
    rw [bpb_value]
    omega

/-- Of all bits of all bitmaps just the one of `v` is new. -/
def Marks (fs after : Fs) (v : Nat) : Prop :=
  ∀ group, group < blockgroups → ∀ bit, bit < bitsperblock →
    bitSet (after.disk (bitmapBlock group)) bit =
      (bitSet (fs.disk (bitmapBlock group)) bit || decide (group = v / bpb ∧ bit = v % bpb))

/-- `balloc` panics only if there is no free block, and otherwise marks the first free
one and nothing else. -/
def FindsFreeBlock (fs : Fs) (cwd : Nat) : Prop :=
  (balloc fs none cwd = .error .outOfBlocks ↔ Full fs) ∧
    (¬ Full fs → ∃ v after, FirstFree fs cwd v ∧
      balloc fs none cwd = .ok (dblock v fs.sb, after) ∧ Marks fs after v)

theorem balloc_full (layout : fs.sb = layoutSb) (cwd : Nat)
    (full : ∀ v, v < fs.sb.size → Taken fs v) : balloc fs none cwd = .error .outOfBlocks := by
  rcases balloc_scans layout (fun u => (Option.some_ne_none _).symm) cwd with
    ⟨u, first, -⟩ | ⟨-, panicked⟩
  · exact absurd (full u first.inRange) first.free
  · exact panicked

/-- The bit stays set unless the block cleared is the bitmap itself. A bitmap block's own
number, read as a virtual block, belongs to that bitmap's group. -/
theorem after_take_marks_iff (layout : fs.sb = layoutSb) (v : Nat) :
    Marks fs (afterTake fs v) v ↔ ∀ group, group < blockgroups → v ≠ bitmapBlock group := by
  have groups : blockgroups = 25 := by decide
  have own : bblock v fs.sb = bitmapBlock (v / bpb) := by
    rw [layout, bblock_eq, bitmap_block_eq, bpb_value]
  constructor
  · intro marks group small cleared
    have here : group = v / bpb := by
      rw [bitmap_block_eq] at cleared
      rw [bpb_value]
      omega
    have bound : v % bpb < bitsperblock :=
      lt_trans (Nat.mod_lt v (by decide)) (by decide : bpb < bitsperblock)
    have set := marks group small (v % bpb) bound
    rw [← cleared] at set
    simp only [afterTake, update_self, blank_bit, here] at set
    simp at set
  · intro apart group small bit bound
    have notCleared : bitmapBlock group ≠ v := (apart group small).symm
    simp only [afterTake]
    rw [update_of_ne notCleared, own]
    by_cases here : group = v / bpb
    · rw [← here, update_self, bit_set_set_bit, Bool.or_comm]
      simp
    · have elsewhere : bitmapBlock group ≠ bitmapBlock (v / bpb) := by
        rw [bitmap_block_eq, bitmap_block_eq]
        omega
      rw [update_of_ne elsewhere]
      simp [here]

/-- The search is complete and takes the first free block, for every contents of the
bitmaps and every current directory. The bitmaps come out right exactly when the block
found does not have the number of a bitmap block. -/
theorem balloc_finds_free_block_iff (fs : Fs) (layout : fs.sb = layoutSb) (cwd : Nat) :
    FindsFreeBlock fs cwd ↔
      ∀ v, FirstFree fs cwd v → ∀ group, group < blockgroups → v ≠ bitmapBlock group := by
  constructor
  · intro finds v first
    have notFull : ¬ Full fs := by
      rw [full_iff_taken layout]
      exact fun full => first.free (full v first.inRange)
    obtain ⟨u, after, found, allocated, marks⟩ := finds.2 notFull
    obtain ⟨w, again, -, rfl, -⟩ := balloc_ok layout allocated
    obtain rfl := first_free_unique first found
    obtain rfl := first_free_unique first again
    exact (after_take_marks_iff layout _).mp marks
  · intro apart
    constructor
    · rw [full_iff_taken layout]
      constructor
      · intro stopped v inside
        by_contra free
        obtain ⟨u, -, allocated⟩ := balloc_returns layout inside free cwd
        rw [stopped] at allocated
        cases allocated
      · exact balloc_full layout cwd
    · intro notFull
      rw [full_iff_taken layout] at notFull
      push Not at notFull
      obtain ⟨v, inside, free⟩ := notFull
      obtain ⟨u, first, allocated⟩ := balloc_returns layout inside free cwd
      exact ⟨u, _, first, allocated, (after_take_marks_iff layout u).mpr (apart u first)⟩

theorem boot_block_disk_finds :
    bootBlockDisk.sb = layoutSb ∧ (FindsFreeBlock bootBlockDisk rootino ↔
      ∀ v, FirstFree bootBlockDisk rootino v →
        ∀ group, group < blockgroups → v ≠ bitmapBlock group) :=
  ⟨rfl, balloc_finds_free_block_iff bootBlockDisk rfl rootino⟩

def thirtyTwoTaken : Fs where
  sb := layoutSb
  disk := update (fun _ => blankBlock) 32
    (fun index => if index < 4 then 255 else 0)
  icache := emptyCache

theorem thirty_two_taken_first {v : Nat} (first : FirstFree thirtyTwoTaken rootino v) : v = 32 := by
  have taken : ∀ u, u < 32 → Taken thirtyTwoTaken u := by
    unfold Taken
    decide
  have free : ¬ Taken thirtyTwoTaken 32 := by
    unfold Taken
    decide
  have start : searchStart thirtyTwoTaken rootino = 0 := by decide
  have before : ∀ u, u < v → Taken thirtyTwoTaken u := by
    rcases first.first with ⟨-, near⟩ | ⟨-, wrapped⟩
    · intro u below
      exact near u (by omega) below
    · exact wrapped
  by_contra different
  rcases Nat.lt_or_gt_of_ne different with below | above
  · exact first.free (taken v below)
  · exact free (before 32 above)

/-- The next allocation there clears block 32, which is the bitmap of group 0. -/
theorem balloc_erases_bitmap :
    ¬ ∀ fs : Fs, fs.sb = layoutSb → ∀ cwd, cwd < fs.sb.ninodes → FindsFreeBlock fs cwd := by
  intro always
  have notFull : ¬ Full thirtyTwoTaken := by
    intro full
    exact absurd (full 0 (by decide) 32 (by decide)) (by decide)
  obtain ⟨v, after, first, allocated, marks⟩ :=
    (always thirtyTwoTaken rfl rootino (by decide)).2 notFull
  obtain ⟨w, again, -, rfl, -⟩ := @balloc_ok thirtyTwoTaken none rfl rootino _ _ allocated
  obtain rfl := thirty_two_taken_first first
  obtain rfl := thirty_two_taken_first again
  exact (@after_take_marks_iff thirtyTwoTaken rfl 32).mp marks 0 (by decide) (by decide)

/-- `bfree(p)` returns, and every bitmap block has the contents it had in `before`. -/
def Undoes (before allocated : Fs) (p : Nat) : Prop :=
  ∃ freed, bfree allocated none p = .ok freed ∧
    ∀ group, group < blockgroups →
      SameBlock (freed.disk (bblock (group * bpb) layoutSb))
        (before.disk (bblock (group * bpb) layoutSb))

/-- The bit that `bfree` clears is not the one that `balloc` set, whichever bitmap it is
looked for in. -/
theorem freed_bit_ne (v : Nat) : v % bpb ≠ dblock v layoutSb % bpb := by
  rw [dblock_eq, bpb_value]
  omega

theorem bfree_ok {fs freed : Fs} {b : Nat} (done : bfree fs none b = .ok freed) :
    ∃ blockno, bitSet (fs.disk blockno) (b % bpb) = true ∧
    freed.disk = update fs.disk blockno (clearBit (fs.disk blockno) (b % bpb)) := by
  simp only [bfree, bind_ok] at done
  obtain ⟨superblock, -, buf, read, done⟩ := done
  obtain ⟨-, -, rfl⟩ := bread_ok read
  split at done
  next set =>
    cases done
    exact ⟨_, set, rfl⟩
  next => cases done

/-- A bitmap that is clear everywhere is not one in which the search went past a bit. -/
theorem first_free_not_bitmap (layout : fs.sb = layoutSb) {cwd v : Nat} (first : FirstFree fs cwd v)
    (isBitmap : v = bblock v fs.sb) : ∃ bit, bit < bpb ∧ bitSet (fs.disk v) bit = true := by
  have placed : bblock v layoutSb = v / 4060 * 4065 + 32 := bblock_eq blockgroups v
  rw [layout, placed] at isBitmap
  have start : v / 4060 * 4060 < v := by omega
  have taken : Taken fs (v / 4060 * 4060) := by
    rcases first.first with ⟨lower, before⟩ | ⟨-, before⟩
    · apply before _ _ start
      unfold searchStart at lower ⊢
      rw [bpb_value] at lower ⊢
      omega
    · exact before _ start
  refine ⟨v / 4060 * 4060 % bpb, Nat.mod_lt _ (by decide), ?_⟩
  unfold Taken at taken
  rw [layout, bblock_eq, show v / 4060 * 4060 / 4060 = v / 4060 by omega] at taken
  rw [← isBitmap] at taken
  exact taken

theorem bfree_never_restores (layout : fs.sb = layoutSb) {cwd v : Nat}
    (first : FirstFree fs cwd v) : ¬ Undoes fs (afterTake fs v) (dblock v fs.sb) := by
  intro undone
  obtain ⟨freed, done, restored⟩ := undone
  obtain ⟨blockno, wasSet, disk⟩ := bfree_ok done
  have inside : v < layoutSb.size := by
    rw [← layout]
    exact first.inRange
  have size : layoutSb.size = 101500 := by decide
  have groups : blockgroups = 25 := by decide
  have same : SameBlock (freed.disk (bblock v fs.sb)) (fs.disk (bblock v fs.sb)) := by
    have here := restored (v / bpb) (by rw [bpb_value]; omega)
    rw [show bblock (v / bpb * bpb) layoutSb = bblock v fs.sb by
      rw [layout, bblock_eq, bblock_eq, bpb_value]
      omega] at here
    exact here
  have bound (bit : Nat) (small : bit < bpb) : bit < bitsperblock := by
    have width : bitsperblock = 4096 := by decide
    rw [bpb_value] at small
    omega
  by_cases isBitmap : v = bblock v fs.sb
  · -- The block cleared is the bitmap itself.
    have blank : (afterTake fs v).disk v = blankBlock := update_self _ _ _
    obtain ⟨bit, small, set⟩ := first_free_not_bitmap layout first isBitmap
    have elsewhere : v ≠ blockno := by
      intro here
      rw [← here, blank, blank_bit] at wasSet
      cases wasSet
    rw [← isBitmap] at same
    have now := same_block_bit same (bound bit small)
    rw [disk, update_of_ne elsewhere, blank, blank_bit, set] at now
    cases now
  · have marked : (afterTake fs v).disk (bblock v fs.sb) =
        setBit (fs.disk (bblock v fs.sb)) (v % bpb) := by
      simp only [afterTake]
      rw [update_of_ne (Ne.symm isBitmap), update_self]
    have other := freed_bit_ne v
    rw [← layout] at other
    have now := same_block_bit same (bound (v % bpb) (Nat.mod_lt v (by decide)))
    have clear : bitSet (fs.disk (bblock v fs.sb)) (v % bpb) = false := by
      simpa [Taken] using first.free
    rw [clear, disk] at now
    by_cases here : bblock v fs.sb = blockno
    · rw [here, update_self, bit_set_clear_bit, ← here, marked, bit_set_set_bit] at now
      simp [other] at now
    · rw [update_of_ne here, marked, bit_set_set_bit] at now
      simp at now

/-- Whatever the bitmaps hold and wherever the search starts, giving a block back right
after `balloc` returned it does not restore the bitmaps. -/
theorem bfree_does_not_undo_balloc (fs : Fs) (layout : fs.sb = layoutSb) (cwd p : Nat) (after : Fs)
    (allocated : balloc fs none cwd = .ok (p, after)) : ¬ Undoes fs after p := by
  obtain ⟨v, first, rfl, rfl, -⟩ := balloc_ok layout allocated
  exact bfree_never_restores layout first

def blankDisk : Fs where
  sb := layoutSb
  disk := fun _ => blankBlock
  icache := emptyCache

theorem blank_disk_balloc :
    balloc blankDisk none rootino = .ok (dblock 0 layoutSb, afterTake blankDisk 0) := by
  have free (v : Nat) : ¬ Taken blankDisk v := by
    unfold Taken blankDisk
    rw [blank_bit]
    exact Bool.false_ne_true
  obtain ⟨v, first, allocated⟩ := @balloc_returns blankDisk rfl 0 (by decide) (free 0) rootino
  have zero := first_free_zero (by decide) (free 0) first
  subst zero
  exact allocated

theorem blank_disk_not_restored : ¬ Undoes blankDisk (afterTake blankDisk 0) (dblock 0 layoutSb) :=
  bfree_does_not_undo_balloc blankDisk rfl rootino _ _ blank_disk_balloc

/-- On a blank disk the first block handed out is 36, and `bfree(36)` finds bit 36
clear. -/
theorem bfree_panics_after_balloc :
    ¬ ∀ fs : Fs, fs.sb = layoutSb → ∀ cwd p after, balloc fs none cwd = .ok (p, after) →
      Undoes fs after p := by
  intro always
  obtain ⟨v, first, same, -⟩ := @balloc_ok blankDisk none rfl rootino _ _ blank_disk_balloc
  have zero : v = 0 := by
    rw [show blankDisk.sb = layoutSb from rfl, dblock_eq, dblock_eq] at same
    omega
  subst zero
  exact @bfree_never_restores blankDisk rfl rootino 0 first
    (always blankDisk rfl rootino _ _ blank_disk_balloc)

end Xv6Hacks.BlockFrames
