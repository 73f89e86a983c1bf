import Xv6Hacks.BlockGroupLayout
import Xv6Hacks.ByteBuffers
import Xv6Hacks.WriteSequences

/-!
# On-disk records

The records `fs.h` lays over blocks: `struct superblock` at the start of block 1,
`struct dinode` in the slots of an inode block, and the `uint` entries of an
indirect block. Numbers are little-endian on disk, which is what `xint` and
`xshort` of `mkfs.c` produce on any host, so neither appears here.
-/

namespace Xv6Hacks.DiskFormat

open BlockGroupLayout ByteBuffers WriteSequences

def blankBlock : Buffer := fun _ => 0

theorem read_blank_block (off width : Nat) : readLE blankBlock off width = 0 := by
  induction width generalizing off with
  | zero => rfl
  | succ width ih => rw [readLE, ih, blankBlock]; rfl

@[ext] structure Dinode where
  type : BitVec 16
  major : BitVec 16
  minor : BitVec 16
  nlink : BitVec 16
  size : BitVec 32
  addrs : Fin (ndirect + 1) → BitVec 32
  deriving DecidableEq

def Dinode.blank : Dinode where
  type := 0
  major := 0
  minor := 0
  nlink := 0
  size := 0
  addrs := fun _ => 0

def tDir : BitVec 16 := 1
def tFile : BitVec 16 := 2
def tDev : BitVec 16 := 3

/-- `addrs[index]`, zero outside the array. -/
def Dinode.addr (d : Dinode) (index : Nat) : Nat :=
  if bound : index < ndirect + 1 then (d.addrs ⟨index, bound⟩).toNat else 0

def Dinode.setAddr (d : Dinode) (index value : Nat) : Dinode :=
  { d with addrs := fun slot => if slot.val = index then BitVec.ofNat 32 value else d.addrs slot }

theorem Dinode.addr_set_same (d : Dinode) (index value : Nat) (bound : index < ndirect + 1)
    (uint : value < 2 ^ 32) : (d.setAddr index value).addr index = value := by
  simp only [Dinode.addr, Dinode.setAddr, bound, ↓reduceDIte, ↓reduceIte, BitVec.toNat_ofNat]
  exact Nat.mod_eq_of_lt uint

theorem Dinode.addr_set_other (d : Dinode) (index other value : Nat) (different : other ≠ index) :
    (d.setAddr index value).addr other = d.addr other := by
  simp [Dinode.addr, Dinode.setAddr, different]

theorem Dinode.blank_addr (index : Nat) : Dinode.blank.addr index = 0 := by
  simp [Dinode.addr, Dinode.blank]

def readDinode (buf : Buffer) (slot : Nat) : Dinode where
  type := BitVec.ofNat 16 (readLE buf (slot * sizeofDinode) 2)
  major := BitVec.ofNat 16 (readLE buf (slot * sizeofDinode + 2) 2)
  minor := BitVec.ofNat 16 (readLE buf (slot * sizeofDinode + 4) 2)
  nlink := BitVec.ofNat 16 (readLE buf (slot * sizeofDinode + 6) 2)
  size := BitVec.ofNat 32 (readLE buf (slot * sizeofDinode + 8) 4)
  addrs := fun index =>
    BitVec.ofNat 32 (readLE buf (slot * sizeofDinode + 12 + 4 * index) 4)

def writeFields (buf : Buffer) (slot : Nat) (d : Dinode) : Buffer :=
  let buf := writeLE buf (slot * sizeofDinode) 2 d.type.toNat
  let buf := writeLE buf (slot * sizeofDinode + 2) 2 d.major.toNat
  let buf := writeLE buf (slot * sizeofDinode + 4) 2 d.minor.toNat
  let buf := writeLE buf (slot * sizeofDinode + 6) 2 d.nlink.toNat
  writeLE buf (slot * sizeofDinode + 8) 4 d.size.toNat

def writeDinode (buf : Buffer) (slot : Nat) (d : Dinode) : Buffer :=
  writeArray (writeFields buf slot d) (slot * sizeofDinode + 12) 4 d.addr (ndirect + 1)

theorem sizeof_dinode_value : sizeofDinode = 64 := by decide

theorem ndirect_value : ndirect = 12 := rfl

theorem write_dinode_outside (buf : Buffer) (slot : Nat) (d : Dinode) (index : Nat)
    (outside : index < slot * 64 ∨ slot * 64 + 64 ≤ index) :
    writeDinode buf slot d index = buf index := by
  simp only [writeDinode, writeFields, sizeof_dinode_value, ndirect_value]
  rw [write_array_outside _ _ _ _ _ _ (by omega), write_le_outside _ _ _ _ _ (by omega),
    write_le_outside _ _ _ _ _ (by omega), write_le_outside _ _ _ _ _ (by omega),
    write_le_outside _ _ _ _ _ (by omega), write_le_outside _ _ _ _ _ (by omega)]

theorem field_round_trip (width : Nat) (field : BitVec (8 * width)) :
    BitVec.ofNat (8 * width) (field.toNat % 256 ^ width) = field := by
  have small : field.toNat < 256 ^ width := by
    rw [show 256 = 2 ^ 8 by rfl, ← pow_mul]
    exact field.isLt
  rw [Nat.mod_eq_of_lt small, BitVec.ofNat_toNat, BitVec.setWidth_eq]

theorem read_write_dinode_same (buf : Buffer) (slot : Nat) (d : Dinode) :
    readDinode (writeDinode buf slot d) slot = d := by
  have below (off width : Nat) (inside : off + width ≤ slot * sizeofDinode + 12) :
      readLE (writeDinode buf slot d) off width = readLE (writeFields buf slot d) off width :=
    read_le_write_array_apart _ _ _ _ _ _ _ (.inl inside)
  have type : readLE (writeDinode buf slot d) (slot * sizeofDinode) 2 =
      d.type.toNat % 256 ^ 2 := by
    rw [below _ _ (by omega), writeFields]
    iterate 4 rw [read_le_write_apart _ _ _ _ _ _ (.inl (by omega))]
    exact read_le_write_same _ _ _ _
  have major : readLE (writeDinode buf slot d) (slot * sizeofDinode + 2) 2 =
      d.major.toNat % 256 ^ 2 := by
    rw [below _ _ (by omega), writeFields]
    iterate 3 rw [read_le_write_apart _ _ _ _ _ _ (.inl (by omega))]
    exact read_le_write_same _ _ _ _
  have minor : readLE (writeDinode buf slot d) (slot * sizeofDinode + 4) 2 =
      d.minor.toNat % 256 ^ 2 := by
    rw [below _ _ (by omega), writeFields]
    iterate 2 rw [read_le_write_apart _ _ _ _ _ _ (.inl (by omega))]
    exact read_le_write_same _ _ _ _
  have nlink : readLE (writeDinode buf slot d) (slot * sizeofDinode + 6) 2 =
      d.nlink.toNat % 256 ^ 2 := by
    rw [below _ _ (by omega), writeFields, read_le_write_apart _ _ _ _ _ _ (.inl (by omega))]
    exact read_le_write_same _ _ _ _
  have size : readLE (writeDinode buf slot d) (slot * sizeofDinode + 8) 4 =
      d.size.toNat % 256 ^ 4 := by
    rw [below _ _ (by omega), writeFields]
    exact read_le_write_same _ _ _ _
  have addr (index : Fin (ndirect + 1)) :
      readLE (writeDinode buf slot d) (slot * sizeofDinode + 12 + 4 * index) 4 =
        (d.addrs index).toNat % 256 ^ 4 := by
    rw [writeDinode, read_le_write_array_at _ _ _ _ _ _ index.isLt, Dinode.addr, dif_pos index.isLt]
  simp only [readDinode, type, major, minor, nlink, size, addr]
  ext1
  · exact field_round_trip 2 d.type
  · exact field_round_trip 2 d.major
  · exact field_round_trip 2 d.minor
  · exact field_round_trip 2 d.nlink
  · exact field_round_trip 4 d.size
  · funext index
    exact field_round_trip 4 (d.addrs index)

theorem read_dinode_congr (left right : Buffer) (slot : Nat)
    (same : ∀ index, slot * 64 ≤ index → index < slot * 64 + 64 → left index = right index) :
    readDinode left slot = readDinode right slot := by
  have number (off width : Nat) (lower : slot * 64 ≤ off) (upper : off + width ≤ slot * 64 + 64) :
      readLE left off width = readLE right off width := by
    apply read_le_congr
    intro index after before
    exact same index (by omega) (by omega)
  simp only [readDinode, sizeof_dinode_value]
  rw [number _ 2 (by omega) (by omega), number _ 2 (by omega) (by omega),
    number _ 2 (by omega) (by omega), number _ 2 (by omega) (by omega),
    number _ 4 (by omega) (by omega)]
  congr 1
  funext index
  have bound : index.val < 13 := index.isLt
  rw [number _ 4 (by omega) (by omega)]

theorem read_write_dinode_other (buf : Buffer) (slot other : Nat) (d : Dinode)
    (different : other ≠ slot) :
    readDinode (writeDinode buf slot d) other = readDinode buf other := by
  apply read_dinode_congr
  intro index lower upper
  apply write_dinode_outside
  omega

theorem read_dinode_blank (slot : Nat) : readDinode blankBlock slot = Dinode.blank := by
  simp only [readDinode, read_blank_block]
  rfl

def loadDinode (disk : Store Buffer) (sb : Superblock) (inum : Nat) : Dinode :=
  readDinode (disk (iblock inum sb)) (dinodeoffset inum sb)

/-- The members of `struct superblock` in declaration order. -/
def superblockWord (sb : Superblock) : Nat → Nat
  | 0 => sb.size
  | 1 => sb.nblocks
  | 2 => sb.ninodes
  | 3 => sb.nlog
  | 4 => sb.logstart
  | 5 => sb.bgstart
  | 6 => sb.nblockgroups
  | 7 => sb.bpbg
  | 8 => sb.ipbg
  | _ => 0

def writeSuperblock (buf : Buffer) (sb : Superblock) : Buffer :=
  writeArray buf 0 sizeofUint (superblockWord sb) 9

def readSuperblock (buf : Buffer) : Superblock where
  size := readLE buf 0 4
  nblocks := readLE buf 4 4
  ninodes := readLE buf 8 4
  nlog := readLE buf 12 4
  logstart := readLE buf 16 4
  bgstart := readLE buf 20 4
  nblockgroups := readLE buf 24 4
  bpbg := readLE buf 28 4
  ipbg := readLE buf 32 4

def readsb (disk : Store Buffer) : Superblock := readSuperblock (disk 1)

theorem read_write_superblock (buf : Buffer) (sb : Superblock)
    (uint : ∀ index, index < 9 → superblockWord sb index < 2 ^ 32) :
    readSuperblock (writeSuperblock buf sb) = sb := by
  have word (index : Nat) (bound : index < 9) :
      readLE (writeSuperblock buf sb) (0 + 4 * index) 4 = superblockWord sb index := by
    rw [writeSuperblock, sizeofUint, read_le_write_array_at _ _ _ _ _ _ bound]
    exact Nat.mod_eq_of_lt (uint index bound)
  simp only [readSuperblock]
  rw [word 0 (by omega), word 1 (by omega), word 2 (by omega), word 3 (by omega),
    word 4 (by omega), word 5 (by omega), word 6 (by omega), word 7 (by omega),
    word 8 (by omega)]
  rfl

end Xv6Hacks.DiskFormat
