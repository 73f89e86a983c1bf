import Xv6Hacks.GuardedRuns
import Xv6Hacks.KernelFs
import Xv6Hacks.Outcomes

/-!
# Which block `balloc` hands out

`balloc` looks through the bitmaps from the group of the current directory on, then
once more from the first group, and takes the first virtual block whose bit is clear.
`FirstFree` says so without the loops.
-/

namespace Xv6Hacks.BlockAllocation

open BlockGroupLayout ByteBuffers DiskFormat Function GuardedRuns KernelFs
open Outcomes (ok_bind)

variable {fs : Fs} {held : Option Nat}

def Taken (fs : Fs) (v : Nat) : Prop := bitSet (fs.disk (bblock v fs.sb)) (v % bpb) = true

def searchStart (fs : Fs) (cwd : Nat) : Nat := bgroup cwd fs.sb * bpb

structure FirstFree (fs : Fs) (cwd v : Nat) : Prop where
  inRange : v < fs.sb.size
  free : ¬ Taken fs v
  first : (searchStart fs cwd ≤ v ∧ ∀ u, searchStart fs cwd ≤ u → u < v → Taken fs u) ∨
    ((∀ u, searchStart fs cwd ≤ u → u < fs.sb.size → Taken fs u) ∧ ∀ u, u < v → Taken fs u)

def afterTake (fs : Fs) (v : Nat) : Fs :=
  { fs with
    disk := update (update fs.disk (bblock v fs.sb)
      (setBit (fs.disk (bblock v fs.sb)) (v % bpb))) v blankBlock }

theorem bread_ok {blockno : Nat} {buf : Buffer} (read : bread fs held blockno = .ok buf) :
    held ≠ some blockno ∧ blockno < fssize blockgroups ∧ buf = fs.disk blockno := by
  rw [bread] at read
  split at read
  · contradiction
  · split at read
    · simp_all
    · contradiction

theorem bread_free {blockno : Nat} (free : held ≠ some blockno)
    (inside : blockno < fssize blockgroups) : bread fs held blockno = .ok (fs.disk blockno) := by
  rw [bread, if_neg free, if_pos inside]

theorem bread_none {blockno : Nat} (inside : blockno < fssize blockgroups) :
    bread fs none blockno = .ok (fs.disk blockno) :=
  bread_free (by simp) inside

theorem clear_bit_of_some {sb : Superblock} {buf : Buffer} {b bi : Nat}
    (found : clearBitOf sb buf b = some bi) : bi < bpb ∧ b + bi < sb.size ∧ bitSet buf bi = false ∧
    ∀ earlier, earlier < bi → bitSet buf earlier = true := by
  rw [clearBitOf, List.find?_range_eq_some] at found
  obtain ⟨clear, member, before⟩ := found
  rw [List.mem_range] at member
  refine ⟨by omega, by omega, by simpa using clear, ?_⟩
  intro earlier smaller
  simpa using before earlier smaller

theorem clear_bit_of_none {sb : Superblock} {buf : Buffer} {b : Nat}
    (missing : clearBitOf sb buf b = none) (bi : Nat) (bound : bi < bpb)
    (inRange : b + bi < sb.size) : bitSet buf bi = true := by
  rw [clearBitOf, List.find?_range_eq_none] at missing
  simpa using missing bi (by omega)

theorem take_block_ok {v p : Nat} {after : Fs} (took : takeBlock fs held v = .ok (p, after)) :
    p = dblock v fs.sb ∧ after = afterTake fs v ∧ held ≠ some v ∧ held ≠ some (bblock v fs.sb) := by
  simp only [takeBlock, bzero, bind_ok] at took
  obtain ⟨buf, read, cleared, ⟨_, reread, zeroed⟩, result⟩ := took
  obtain ⟨bitmapFree, -, rfl⟩ := bread_ok read
  obtain ⟨blockFree, -, -⟩ := bread_ok reread
  cases zeroed
  cases result
  exact ⟨rfl, rfl, blockFree, bitmapFree⟩

section Scan
variable (layout : fs.sb = mkfsSuperblock blockgroups)
include layout

theorem taken_in_group (g bi : Nat) (bound : bi < bpb) :
    Taken fs (g * bpb + bi) ↔ bitSet (fs.disk (bblock (g * bpb) fs.sb)) bi = true := by
  rw [bpb_value] at bound
  rw [Taken, layout, bblock_eq, bblock_eq, bpb_value]
  rw [show (g * 4060 + bi) / 4060 = g * 4060 / 4060 by omega,
    show (g * 4060 + bi) % 4060 = bi by omega]

theorem scan_bitmaps_ok {result : Option Nat} (g head : Nat) (near : head ≤ g * 4065 + 32)
    (scanned : scanBitmaps fs held (g * bpb) head = .ok result) :
    match result with
    | some v => v < fs.sb.size ∧ ¬ Taken fs v ∧ g * bpb ≤ v ∧
        ∀ u, g * bpb ≤ u → u < v → Taken fs u
    | none => ∀ u, g * bpb ≤ u → u < fs.sb.size → Taken fs u := by
  have size : fs.sb.size = 101500 := by
    rw [layout]
    decide
  have nblocks : fs.sb.nblocks = 101500 := by
    rw [layout]
    decide
  have width := bpb_value
  rw [scanBitmaps] at scanned
  split at scanned
  · rename_i inside
    rw [bind_ok] at scanned
    obtain ⟨buf, read, scanned⟩ := scanned
    obtain ⟨-, -, rfl⟩ := bread_ok read
    split at scanned
    · rename_i bi found
      obtain ⟨bound, inRange, clear, before⟩ := clear_bit_of_some found
      cases scanned
      refine ⟨inRange, ?_, Nat.le_add_right _ _, ?_⟩
      · rw [taken_in_group layout g bi bound, clear]
        simp
      · intro u lower upper
        have here : u = g * bpb + (u - g * bpb) := by omega
        rw [here, taken_in_group layout g _ (by omega)]
        exact before _ (by omega)
    · rename_i missing
      have full : ∀ u, g * bpb ≤ u → u < g * bpb + bpb → u < fs.sb.size → Taken fs u := by
        intro u lower upper inRange
        have here : u = g * bpb + (u - g * bpb) := by omega
        rw [here, taken_in_group layout g _ (by omega)]
        exact clear_bit_of_none missing _ (by omega) (by omega)
      rw [show g * bpb + bpb = (g + 1) * bpb by rw [Nat.succ_mul]] at scanned
      have rest := scan_bitmaps_ok (g + 1) (head + BlockGroupLayout.bpbg)
        (by rw [bpbg_value]; omega) scanned
      have next : (g + 1) * bpb = g * bpb + bpb := Nat.succ_mul g bpb
      cases result with
      | some v =>
        obtain ⟨inRange, free, lower, before⟩ := rest
        refine ⟨inRange, free, by omega, ?_⟩
        intro u above below
        by_cases here : u < g * bpb + bpb
        · exact full u above here (by omega)
        · exact before u (by omega) below
      | none =>
        intro u above inRange
        by_cases here : u < g * bpb + bpb
        · exact full u above here inRange
        · exact rest u (by omega) inRange
  · rename_i outside
    cases scanned
    intro u above inRange
    rw [width] at above outside
    omega
termination_by fs.sb.nblocks - g * bpb
decreasing_by
  have positive : 0 < bpb := by decide
  rw [Nat.succ_mul]
  omega

theorem balloc_ok {cwd p : Nat} {after : Fs} (allocated : balloc fs held cwd = .ok (p, after)) :
    ∃ v, FirstFree fs cwd v ∧ p = dblock v fs.sb ∧ after = afterTake fs v ∧
    held ≠ some v ∧ held ≠ some (bblock v fs.sb) := by
  have near : bmapHead cwd fs.sb ≤ bgroup cwd fs.sb * 4065 + 32 := by
    rw [layout]
    simp only [bmapHead, bgroup, mkfsSuperblock, bpbg_value, logsize_value]
    omega
  simp only [balloc, bind_ok] at allocated
  obtain ⟨first, scanned, allocated⟩ := allocated
  have firstPass := scan_bitmaps_ok layout _ _ near scanned
  cases first with
  | some v =>
    obtain ⟨inRange, free, lower, before⟩ := firstPass
    exact ⟨v, ⟨inRange, free, .inl ⟨lower, before⟩⟩, take_block_ok allocated⟩
  | none =>
    simp only [bind_ok] at allocated
    obtain ⟨second, rescanned, allocated⟩ := allocated
    rw [show (0 : Nat) = 0 * bpb by rw [Nat.zero_mul]] at rescanned
    have secondPass := scan_bitmaps_ok layout 0 _ (by simp) rescanned
    cases second with
    | some v =>
      obtain ⟨inRange, free, -, before⟩ := secondPass
      refine ⟨v, ⟨inRange, free, .inr ⟨firstPass, ?_⟩⟩, take_block_ok allocated⟩
      intro u below
      exact before u (by rw [Nat.zero_mul]; exact Nat.zero_le u) below
    | none => contradiction

theorem bitmap_on_disk {b : Nat} (inside : b < fs.sb.nblocks) :
    bblock b fs.sb < fssize blockgroups := by
  have nblocks : fs.sb.nblocks = 101500 := by
    rw [layout]
    decide
  have disk : fssize blockgroups = 101657 := by decide
  rw [layout, bblock_eq, disk]
  omega

theorem scan_bitmaps_returns (apart : ∀ u, held ≠ some (bblock u fs.sb)) (b head : Nat) :
    ∃ result, scanBitmaps fs held b head = .ok result := by
  rw [scanBitmaps]
  split
  next inside =>
    rw [bread_free (apart b) (bitmap_on_disk layout inside.2), ok_bind]
    split
    next bi found => exact ⟨_, rfl⟩
    next missing => exact scan_bitmaps_returns apart _ _
  next => exact ⟨none, rfl⟩
termination_by fs.sb.nblocks - b
decreasing_by
  have positive : 0 < bpb := by decide
  omega

theorem take_block_returns {v : Nat} (apart : held ≠ some (bblock v fs.sb)) (other : held ≠ some v)
    (inside : v < fs.sb.size) : takeBlock fs held v = .ok (dblock v fs.sb, afterTake fs v) := by
  have size : fs.sb.size = 101500 := by
    rw [layout]
    decide
  have nblocks : fs.sb.nblocks = 101500 := by
    rw [layout]
    decide
  have disk : fssize blockgroups = 101657 := by decide
  unfold takeBlock
  rw [bread_free apart (bitmap_on_disk layout (by omega)), ok_bind]
  simp only [bzero]
  rw [bread_free other (by omega)]
  rfl

theorem balloc_scans (apart : ∀ u, held ≠ some (bblock u fs.sb)) (cwd : Nat) :
    (∃ v, FirstFree fs cwd v ∧ balloc fs held cwd = takeBlock fs held v) ∨
    ((∀ v, v < fs.sb.size → Taken fs v) ∧ balloc fs held cwd = .error .outOfBlocks) := by
  have near : bmapHead cwd fs.sb ≤ bgroup cwd fs.sb * 4065 + 32 := by
    rw [layout]
    simp only [bmapHead, bgroup, mkfsSuperblock, bpbg_value, logsize_value]
    omega
  obtain ⟨first, scanned⟩ := scan_bitmaps_returns layout apart (bgroup cwd fs.sb * bpb)
    (bmapHead cwd fs.sb)
  have firstPass := scan_bitmaps_ok layout _ _ near scanned
  unfold balloc
  rw [scanned, ok_bind]
  cases first with
  | some v =>
    obtain ⟨inRange, free, lower, before⟩ := firstPass
    exact .inl ⟨v, ⟨inRange, free, .inl ⟨lower, before⟩⟩, rfl⟩
  | none =>
    obtain ⟨second, rescanned⟩ := scan_bitmaps_returns layout apart 0 0
    simp only
    rw [rescanned, ok_bind]
    rw [show (0 : Nat) = 0 * bpb by rw [Nat.zero_mul]] at rescanned
    have secondPass := scan_bitmaps_ok layout 0 _ (by simp) rescanned
    cases second with
    | some v =>
      obtain ⟨inRange, free, -, before⟩ := secondPass
      refine .inl ⟨v, ⟨inRange, free, .inr ⟨firstPass, ?_⟩⟩, rfl⟩
      intro u below
      exact before u (by rw [Nat.zero_mul]; exact Nat.zero_le u) below
    | none =>
      right
      refine ⟨fun v inside => ?_, rfl⟩
      exact secondPass v (by rw [Nat.zero_mul]; exact Nat.zero_le v) inside

end Scan

theorem first_free_unique {cwd u v : Nat} (left : FirstFree fs cwd u) (right : FirstFree fs cwd v) :
    u = v := by
  have leftIn := left.inRange
  have rightIn := right.inRange
  rcases left.first with ⟨uLater, uFirst⟩ | ⟨uNone, uFirst⟩ <;>
    rcases right.first with ⟨vLater, vFirst⟩ | ⟨vNone, vFirst⟩
  · by_contra different
    rcases Nat.lt_or_gt_of_ne different with below | above
    · exact left.free (vFirst u uLater below)
    · exact right.free (uFirst v vLater above)
  · exact absurd (vNone u uLater leftIn) left.free
  · exact absurd (uNone v vLater rightIn) right.free
  · by_contra different
    rcases Nat.lt_or_gt_of_ne different with below | above
    · exact left.free (vFirst u below)
    · exact right.free (uFirst v above)

theorem balloc_first {cwd v : Nat} (layout : fs.sb = mkfsSuperblock blockgroups)
    (first : FirstFree fs cwd v) (apart : ∀ u, held ≠ some (bblock u fs.sb))
    (other : held ≠ some v) : balloc fs held cwd = .ok (dblock v fs.sb, afterTake fs v) := by
  rcases balloc_scans layout apart cwd with ⟨u, found, allocated⟩ | ⟨full, -⟩
  · rw [first_free_unique found first] at allocated
    rw [allocated, take_block_returns layout (apart v) other first.inRange]
  · exact absurd (full v first.inRange) first.free

end Xv6Hacks.BlockAllocation
