import Xv6Hacks.ImageContents

/-!
# The files of an accepted image

`mkfs` fails an assertion when a file gets too long or when the blocks do not fit the
first group. An image it accepts therefore holds every file in full. `main` then rounds the
size of the root directory up to the next multiple of `BSIZE`, and past it when the entries
fill their last block.
-/

namespace Xv6Hacks.AcceptedImage

open Function
open BlockGroupLayout BlockOwnership ByteBuffers DiskFormat ImageConsistency ImageContents Mkfs
open MkfsInodes

variable {image after : Image} {inum : Nat}

variable {files : Nat → List Byte}

end Xv6Hacks.AcceptedImage
