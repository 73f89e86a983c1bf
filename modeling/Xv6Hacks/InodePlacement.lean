import Xv6Hacks.KernelFs

/-!
# Where the inodes of an image lie

Inode numbers run through all groups; each group keeps its 29 inodes in four blocks of
eight slots, and the statistics of the group lie at the end of the last of these blocks.
The results hold for every number of groups, with the superblock `mkfs` derives from it.
-/

namespace Xv6Hacks.InodePlacement

open BlockGroupLayout
open KernelFs (statoff)

def place (groups inum : Nat) : Nat × Nat :=
  (iblock inum (mkfsSuperblock groups), dinodeoffset inum (mkfsSuperblock groups))

end Xv6Hacks.InodePlacement
