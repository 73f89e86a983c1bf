import Xv6Hacks.BlockOwnership

/-!
# Building the image

`mkfs.c` for the default build: sector access, inode allocation, `iappend` and
`main`. A run that exits with an error or fails an assertion is `none`. The state
is the image file with the two allocation counters, and `written` remembers the
last `winode` of each inode number; nothing reads it. Sector numbers stay far
below `2 ^ 23`, so that `sec * BSIZE` does not wrap. An input file is given by
its name and by what successive calls of `read` return.
-/

namespace Xv6Hacks.Mkfs

open BlockGroupLayout ByteBuffers DiskFormat Function WriteSequences

abbrev sb : Superblock := mkfsSuperblock blockgroups

structure Image where
  /-- Length of the image file in sectors. -/
  length : Nat
  sector : Store Buffer
  freeinode : Nat
  freeblock : Nat
  written : Nat → Option Dinode

/-- Writing past the end extends the file. -/
def wsect (sec : Nat) (buf : Buffer) (image : Image) : Image :=
  { image with
    length := max image.length (sec + 1)
    sector := update image.sector sec buf }

/-- Reading past the end is a short read, and `mkfs` gives up. -/
def rsect (sec : Nat) (image : Image) : Option Buffer :=
  if sec < image.length then some (image.sector sec) else none

def winode (inum : Nat) (d : Dinode) (image : Image) : Option Image := do
  let bn := iblock inum sb
  let buf ← rsect bn image
  let image := wsect bn (writeDinode buf (inum % ipb) d) image
  some { image with written := update image.written inum (some d) }

def rinode (inum : Nat) (image : Image) : Option Dinode := do
  let buf ← rsect (iblock inum sb) image
  some (readDinode buf (inum % ipb))

/-- The inode `ialloc` fills in: zero but for the type and the link count. -/
def newInode (type : BitVec 16) : Dinode := { Dinode.blank with type := type, nlink := 1 }

def ialloc (type : BitVec 16) (image : Image) : Option (Nat × Image) := do
  let inum := image.freeinode
  let image ← winode inum (newInode type) { image with freeinode := inum + 1 }
  some (inum, image)

def fillAddr (din : Dinode) (index : Nat) (image : Image) : Dinode × Image :=
  if din.addr index = 0 then
    (din.setAddr index (dblock image.freeblock sb),
      { image with freeblock := image.freeblock + 1 })
  else (din, image)

def fillEntry (indirect index : Nat) (image : Image) : Option (Nat × Image) := do
  let buf ← rsect indirect image
  let entry := readLE buf (sizeofUint * index) sizeofUint
  if entry = 0 then
    let fresh := dblock image.freeblock sb
    some (fresh, wsect indirect (writeLE buf (sizeofUint * index) sizeofUint fresh)
      { image with freeblock := image.freeblock + 1 })
  else some (entry, image)

def mapBlock (din : Dinode) (fbn : Nat) (image : Image) : Option (Dinode × Nat × Image) :=
  if fbn < ndirect then
    let (din, image) := fillAddr din fbn image
    some (din, din.addr fbn, image)
  else do
    let (din, image) := fillAddr din ndirect image
    let (x, image) ← fillEntry (din.addr ndirect) (fbn - ndirect) image
    some (din, x, image)

theorem block_has_room (off : Nat) : off < (off / bsize + 1) * bsize := by
  simp only [bsize]
  omega

/-- The loop of `iappend`, from file offset `off` on. -/
def appendLoop (din : Dinode) (off : Nat) (p : List Byte) (image : Image) :
    Option (Dinode × Nat × Image) :=
  if p = [] then some (din, off, image)
  else do
    let fbn := off / bsize
    guard (fbn < maxfile)
    let (din, x, image) ← mapBlock din fbn image
    let n1 := min p.length ((fbn + 1) * bsize - off)
    let buf ← rsect x image
    let image := wsect x (copyInto buf (off - fbn * bsize) (p.take n1)) image
    appendLoop din (off + n1) (p.drop n1) image
termination_by p.length
decreasing_by
  have room := block_has_room off
  have nonempty := List.length_pos_iff.mpr ‹p ≠ []›
  simp only [List.length_drop]
  omega

def iappend (inum : Nat) (p : List Byte) (image : Image) : Option Image := do
  let din ← rinode inum image
  let (din, off, image) ← appendLoop din din.size.toNat p image
  winode inum { din with size := BitVec.ofNat 32 off } image

def dirsiz : Nat := 14

/-- A directory entry; `strncpy` pads the name with zeros. -/
def dirent (inum : Nat) (name : List Byte) : List Byte :=
  [byteOf inum 0, byteOf inum 1] ++ (name.take dirsiz).rightpad dirsiz 0

structure InputFile where
  /-- The argument as given, without its terminator. -/
  name : List Byte
  /-- What each `read` returns, or nothing if `open` fails. -/
  reads : Option (List (List Byte))
  /-- `read` is asked for one block at a time. -/
  fits : ∀ chunks ∈ reads, ∀ chunk ∈ chunks, chunk.length ≤ bsize

def slash : Byte := 0x2f
def underscore : Byte := 0x5f
def dot : Byte := 0x2e

def stripName : List Byte → List Byte
  | [] => []
  | first :: rest => if first = underscore then rest else first :: rest

/-- The loop stops at the first `read` that returns nothing. -/
def copyReads (inum : Nat) : List (List Byte) → Image → Option Image
  | [], image => some image
  | chunk :: rest, image =>
    if chunk = [] then some image
    else do
      let image ← iappend inum chunk image
      copyReads inum rest image

def addFile (image : Image) (file : InputFile) : Option Image := do
  guard (slash ∉ file.name)
  let chunks ← file.reads
  let (inum, image) ← ialloc tFile image
  let image ← iappend rootino (dirent inum (stripName file.name)) image
  copyReads inum chunks image

/-- The bitmap of the first group with the first `used` bits set. -/
def bitmap : Nat → Buffer
  | 0 => blankBlock
  | used + 1 => setBit (bitmap used) used

def balloc (used : Nat) (image : Image) : Option Image :=
  if used < bpb then some (wsect sb.bgstart (bitmap used) image) else none

/-- The image after every sector has been cleared and the superblock written. -/
def blankImage : Image :=
  wsect 1 (writeSuperblock blankBlock sb)
    { length := fssize blockgroups
      sector := fun _ => blankBlock
      freeinode := 1
      freeblock := nmeta blockgroups
      written := fun _ => none }

def mkRoot (image : Image) : Option Image := do
  let (root, image) ← ialloc tDir image
  guard (root = rootino)
  let image ← iappend root (dirent root [dot]) image
  iappend root (dirent root [dot, dot]) image

def fixRootSize (image : Image) : Option Image := do
  let din ← rinode rootino image
  let off := (din.size.toNat / bsize + 1) * bsize
  winode rootino { din with size := BitVec.ofNat 32 off } image

/-- `main` for the list of files after the image's name. -/
def mkfs (files : List InputFile) : Option Image := do
  let image ← mkRoot blankImage
  let image ← files.foldlM addFile image
  let image ← fixRootSize image
  balloc image.freeblock image

end Xv6Hacks.Mkfs
