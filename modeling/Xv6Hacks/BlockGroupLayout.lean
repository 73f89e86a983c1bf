import Mathlib.Tactic

/-!
# The block-group disk layout

The constants and address macros of `fs.h` for the default build (`xv6ffs`
undefined), and the superblock `mkfs` derives from a number of block groups.
The source computes in `uint`; here the macros are read over the naturals, and
`macros_fit_uint` says for which images the two readings agree. Each group is
meant to hold a bitmap block, `ninodeblocks` inode blocks and `ndatablocks`
data blocks, in that order.
-/

namespace Xv6Hacks.BlockGroupLayout

def bsize : Nat := 512
def ndirect : Nat := 12
def sizeofUint : Nat := 4
def nindirect : Nat := bsize / sizeofUint
def maxfile : Nat := ndirect + nindirect
def maxopblocks : Nat := 10
def logsize : Nat := maxopblocks * 3

/-- `max` in `filewrite`, the most bytes that it writes in one transaction. -/
def maxChunk : Nat := (logsize - 1 - 1 - 2) / 2 * 512

def rootino : Nat := 1

/-- Four shorts, the size and `NDIRECT + 1` addresses. -/
def sizeofDinode : Nat := 4 * 2 + sizeofUint + sizeofUint * (ndirect + 1)

def ipb : Nat := bsize / sizeofDinode
def blockgroups : Nat := 25
def bitsperblock : Nat := bsize * 8
def ndatablocks : Nat := bitsperblock - bitsperblock % maxfile
def bpb : Nat := ndatablocks
def ipbg : Nat := ndatablocks / maxfile
def ninodeblocks : Nat := ipbg / ipb + 1
def bpbg : Nat := ninodeblocks + ndatablocks + 1

def fssize (groups : Nat) : Nat := groups * bpbg + logsize + 2

structure Superblock where
  size : Nat
  nblocks : Nat
  ninodes : Nat
  nlog : Nat
  logstart : Nat
  bgstart : Nat
  nblockgroups : Nat
  bpbg : Nat
  ipbg : Nat
  deriving DecidableEq, Repr

def nmeta (groups : Nat) : Nat := 2 + logsize + ninodeblocks * groups + groups

/-- The superblock `main` of `mkfs.c` fills in. Its `size` counts data blocks
only, and `nblocks` counts what the metadata leaves of the image. -/
def mkfsSuperblock (groups : Nat) : Superblock where
  size := ndatablocks * groups
  nblocks := fssize groups - nmeta groups
  ninodes := ipbg * groups
  nlog := logsize
  logstart := 2
  bgstart := 2 + logsize
  nblockgroups := groups
  bpbg := bpbg
  ipbg := ipbg

def bgroup (i : Nat) (sb : Superblock) : Nat := i / sb.ipbg

def inodeHead (i : Nat) (sb : Superblock) : Nat := i / sb.ipbg * sb.ipbg

def bmapHead (piNode : Nat) (sb : Superblock) : Nat :=
  piNode / sb.ipbg * sb.bpbg + sb.bgstart

def dinodeoffset (inum : Nat) (sb : Superblock) : Nat := inum % sb.ipbg % ipb

def iblock (i : Nat) (sb : Superblock) : Nat :=
  i / sb.ipbg * sb.bpbg + i % sb.ipbg / ipb + 1 + sb.bgstart

def bblock (b : Nat) (sb : Superblock) : Nat := b / bpb * sb.bpbg + sb.bgstart

def dblock (b : Nat) (sb : Superblock) : Nat :=
  b / bpb * sb.bpbg + b % bpb + ninodeblocks + sb.bgstart

def statblock (m : Nat) (sb : Superblock) : Nat :=
  sb.bgstart + m * sb.bpbg + ninodeblocks

def statPercentageAbs (totalBlocks : Nat) (sb : Superblock) : Nat :=
  totalBlocks * 100 / sb.ipbg

theorem ndatablocks_value : ndatablocks = 4060 := by decide

theorem bpb_value : bpb = 4060 := by decide

theorem ipbg_value : ipbg = 29 := by decide

theorem ipb_value : ipb = 8 := by decide

theorem ninodeblocks_value : ninodeblocks = 4 := by decide

theorem bpbg_value : bpbg = 4065 := by decide

theorem logsize_value : logsize = 30 := by decide

theorem fssize_eq (groups : Nat) : fssize groups = groups * 4065 + 32 := by
  simp only [fssize, bpbg_value, logsize_value]

theorem dblock_eq (groups v : Nat) :
    dblock v (mkfsSuperblock groups) = v / 4060 * 4065 + v % 4060 + 36 := by
  simp only [dblock, mkfsSuperblock, bpb_value, bpbg_value, ninodeblocks_value, logsize_value]

theorem bblock_eq (groups b : Nat) : bblock b (mkfsSuperblock groups) = b / 4060 * 4065 + 32 := by
  simp only [bblock, mkfsSuperblock, bpb_value, bpbg_value, logsize_value]

theorem iblock_eq (groups i : Nat) :
    iblock i (mkfsSuperblock groups) = i / 29 * 4065 + i % 29 / 8 + 33 := by
  simp only [iblock, mkfsSuperblock, ipbg_value, ipb_value, bpbg_value, logsize_value]

theorem statblock_eq (groups m : Nat) : statblock m (mkfsSuperblock groups) = m * 4065 + 36 := by
  simp only [statblock, mkfsSuperblock, bpbg_value, ninodeblocks_value, logsize_value]
  omega

theorem dinodeoffset_eq (groups i : Nat) : dinodeoffset i (mkfsSuperblock groups) = i % 29 % 8 := by
  simp only [dinodeoffset, mkfsSuperblock, ipbg_value, ipb_value]

/-- As long as the image's blocks are numbered by a `uint`, no macro wraps:
the largest intermediate value of each of them is the result itself. -/
theorem macros_fit_uint (groups v i m : Nat) (fits : fssize groups ≤ 2 ^ 32)
    (data : v < groups * ndatablocks) (inode : i < groups * ipbg) (group : m < groups) :
    dblock v (mkfsSuperblock groups) < 2 ^ 32 ∧ bblock v (mkfsSuperblock groups) < 2 ^ 32 ∧
    iblock i (mkfsSuperblock groups) < 2 ^ 32 ∧ statblock m (mkfsSuperblock groups) < 2 ^ 32 := by
  rw [fssize_eq] at fits
  rw [ndatablocks_value] at data
  rw [ipbg_value] at inode
  rw [dblock_eq, bblock_eq, iblock_eq, statblock_eq]
  refine ⟨?_, ?_, ?_, ?_⟩ <;> omega

theorem dblock_injective (groups : Nat) :
    Function.Injective fun v => dblock v (mkfsSuperblock groups) := by
  intro left right same
  simp only [dblock_eq] at same
  omega

theorem dblock_on_disk (groups v : Nat) (bound : v < groups * ndatablocks) :
    dblock v (mkfsSuperblock groups) < fssize groups := by
  rw [ndatablocks_value] at bound
  rw [dblock_eq, fssize_eq]
  omega

end Xv6Hacks.BlockGroupLayout
