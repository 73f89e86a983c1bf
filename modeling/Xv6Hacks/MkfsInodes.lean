import Xv6Hacks.ImageConsistency

/-!
# Where the kernel finds the inodes of an image

`mkfs` and the kernel place inode `inum` in the same block but not in the same slot:
`mkfs` uses `inum % IPB`, the kernel `(inum % ipbg) % IPB`. The two agree in the
groups whose number is a multiple of eight. In any other group the kernel loads the
inode of another number, or a blank one.
-/

namespace Xv6Hacks.MkfsInodes

open Function
open BlockGroupLayout BlockOwnership ByteBuffers DiskFormat ImageConsistency Mkfs

variable {image after : Image}

def InputFile.isEmpty (file : InputFile) : Bool :=
  match file.reads with
  | some (chunk :: _) => chunk.isEmpty
  | _ => true

/-- The inode of an input file: untouched if the file is empty, else with a first
block. -/
structure FileInode (file : InputFile) (d : Dinode) : Prop where
  type : d.type = tFile
  empty : InputFile.isEmpty file = true → d = newInode tFile
  filled : InputFile.isEmpty file = false → d.addr 0 ≠ 0

structure Built (files : List InputFile) (image : Image) : Prop where
  sound : Sound image (view image)
  freeinode : image.freeinode = files.length + 2
  group : ∀ inum, inum < image.freeinode → inum / 29 < blockgroups
  unwritten : ∀ inum, image.freeinode ≤ inum → image.written inum = none
  zero : image.written 0 = none
  root : ∃ d, image.written rootino = some d ∧ d.type = tDir
  files : ∀ index (bound : index < files.length), ∃ d,
    image.written (index + 2) = some d ∧ FileInode files[index] d

theorem ialloc_allocated {type : BitVec 16} {inum : Nat}
    (allocated : ialloc type image = some (inum, after)) :
    inum = image.freeinode ∧ after.freeinode = image.freeinode + 1 ∧
    after.freeblock = image.freeblock ∧
    after.written = update image.written inum (some (newInode type)) ∧
    (Sound image (view image) → image.written inum = none →
    Sound after (view after) ∧ inum / 29 < blockgroups) := by
  simp only [ialloc, Option.bind_eq_bind, Option.bind_eq_some_iff, Option.some.injEq,
    Prod.mk.injEq] at allocated
  obtain ⟨_, written, rfl, rfl⟩ := allocated
  obtain ⟨record, freeinode, freeblock⟩ := winode_counters written
  refine ⟨rfl, freeinode, freeblock, record, ?_⟩
  intro sound fresh
  have blank : update (view image) image.freeinode Dinode.blank = view image := by
    have unseen : view image image.freeinode = Dinode.blank := by rw [view, fresh]; rfl
    rw [← unseen]
    exact update_eq_self _ _
  have sameView : view { image with freeinode := image.freeinode + 1 } = view image := rfl
  have counted : Sound { image with freeinode := image.freeinode + 1 }
      (update (view { image with freeinode := image.freeinode + 1 })
        image.freeinode Dinode.blank) := by
    rw [sameView, blank]
    exact ⟨sound.length, sound.super, sound.slots, sound.started, sound.owned⟩
  have addrs : (newInode type).addrs = Dinode.blank.addrs := rfl
  exact winode_keeps counted addrs written

theorem copy_reads_copied (inum : Nat) (chunks : List (List Byte)) (image after : Image)
    (copied : copyReads inum chunks image = some after) :
    image.freeblock ≤ after.freeblock ∧ after.freeinode = image.freeinode ∧
    (after.freeblock ≤ ndatablocks → Sound image (view image) → ∀ d, image.written inum = some d →
    Sound after (view after) ∧ ∃ grown,
    after.written = update image.written inum (some grown) ∧ Grown d grown ∧
    ((∀ chunk ∈ chunks.head?, chunk = []) → grown = d) ∧
    (d.size = 0 → ∀ chunk ∈ chunks.head?, chunk ≠ [] → grown.addr 0 ≠ 0)) := by
  induction chunks generalizing image with
  | nil =>
    simp only [copyReads, Option.some.injEq] at copied
    subst copied
    refine ⟨le_rfl, rfl, fun _ sound d known => ⟨sound, d, ?_, Grown.refl d, ?_, ?_⟩⟩
    · rw [← known, update_eq_self]
    · exact fun _ => rfl
    · simp
  | cons chunk rest ih =>
    rw [copyReads] at copied
    split at copied
    · rename_i empty
      simp only [Option.some.injEq] at copied
      subst copied
      refine ⟨le_rfl, rfl, fun _ sound d known => ⟨sound, d, ?_, Grown.refl d, ?_, ?_⟩⟩
      · rw [← known, update_eq_self]
      · exact fun _ => rfl
      · simp [empty]
    · rename_i nonempty
      simp only [Option.bind_eq_bind, Option.bind_eq_some_iff] at copied
      obtain ⟨middle, appended, copied⟩ := copied
      have first := iappend_appended appended
      obtain ⟨freeblock, freeinode, later⟩ := ih middle copied
      refine ⟨Nat.le_trans first.freeblock freeblock, freeinode.trans first.freeinode, ?_⟩
      intro small sound d known
      have viewed : view image inum = d := by rw [view, known]; rfl
      obtain ⟨middleSound, partway, record, grown, started⟩ :=
        first.sound (freeblock.trans small) sound
      obtain ⟨afterSound, final, finalRecord, finalGrown, -, -⟩ :=
        later small middleSound partway (by rw [record, update_self])
      rw [viewed] at grown started
      refine ⟨afterSound, final, ?_, grown.trans finalGrown, ?_, ?_⟩
      · rw [finalRecord, record, update_idem]
      · intro headEmpty
        exact absurd (headEmpty chunk rfl) nonempty
      · intro zero _ _ _
        have held := started nonempty zero
        rw [finalGrown.kept 0 held]
        exact held

theorem file_inode_of_copied {file : InputFile} {chunks : List (List Byte)} {grown : Dinode}
    (reads : file.reads = some chunks) (kept : Grown (newInode tFile) grown)
    (unchanged : (∀ chunk ∈ chunks.head?, chunk = []) → grown = newInode tFile)
    (started : ∀ chunk ∈ chunks.head?, chunk ≠ [] → grown.addr 0 ≠ 0) : FileInode file grown := by
  constructor
  · exact kept.type
  · intro empty
    apply unchanged
    rw [InputFile.isEmpty, reads] at empty
    cases chunks with
    | nil => simp
    | cons first rest => simpa using empty
  · intro nonempty
    rw [InputFile.isEmpty, reads] at nonempty
    cases chunks with
    | nil => simp at nonempty
    | cons first rest => exact started first rfl (by simpa using nonempty)

theorem add_file_built {file : InputFile} (added : addFile image file = some after) :
    image.freeblock ≤ after.freeblock ∧
    (after.freeblock ≤ ndatablocks → ∀ files, Built files image →
    Built (files ++ [file]) after) := by
  simp only [addFile, Option.bind_eq_bind, Option.bind_eq_some_iff, Prod.exists] at added
  obtain ⟨_, _, chunks, reads, inum, first, allocated, second, appended, copied⟩ := added
  obtain ⟨rfl, counted, sameBlocks, record, allocatedSound⟩ := ialloc_allocated allocated
  have rootAppended := iappend_appended appended
  obtain ⟨moreBlocks, sameInodes, copiedSound⟩ := copy_reads_copied _ chunks second after copied
  have blocks := rootAppended.freeblock
  refine ⟨by omega, ?_⟩
  intro small files built
  have fresh := built.unwritten image.freeinode le_rfl
  obtain ⟨firstSound, group⟩ := allocatedSound built.sound fresh
  obtain ⟨secondSound, root, rootRecord, rootKept, -⟩ := rootAppended.sound (by omega) firstSound
  have number := built.freeinode
  have notRoot : image.freeinode ≠ rootino := by
    rw [number, rootino]
    omega
  have known : second.written image.freeinode = some (newInode tFile) := by
    rw [rootRecord, update_of_ne notRoot, record, update_self]
  obtain ⟨sound, grown, finalRecord, kept, unchanged, started⟩ :=
    copiedSound small secondSound _ known
  have final : after.freeinode = image.freeinode + 1 := by
    rw [sameInodes, rootAppended.freeinode, counted]
  have others (other : Nat) (notNew : other ≠ image.freeinode) (notRoot : other ≠ rootino) :
      after.written other = image.written other := by
    rw [finalRecord, update_of_ne notNew, rootRecord, update_of_ne notRoot,
      record, update_of_ne notNew]
  constructor
  case sound => exact sound
  case freeinode =>
    rw [final, number, List.length_append, List.length_singleton]
  case group =>
    intro other bound
    rcases Nat.lt_succ_iff_lt_or_eq.mp (final ▸ bound) with earlier | rfl
    · exact built.group other earlier
    · exact group
  case unwritten =>
    intro other beyond
    rw [others other (by omega) (by rw [rootino]; omega)]
    exact built.unwritten other (by omega)
  case zero =>
    rw [others 0 (by omega) (by decide)]
    exact built.zero
  case root =>
    exists root
    rw [finalRecord, update_of_ne notRoot.symm, rootRecord, update_self]
    obtain ⟨d, found, directory⟩ := built.root
    have before : view first rootino = d := by
      rw [view, record, update_of_ne notRoot.symm, found]
      rfl
    exact ⟨rfl, rootKept.type.trans (before ▸ directory)⟩
  case files =>
    intro index bound
    rw [List.length_append, List.length_singleton] at bound
    by_cases earlier : index < files.length
    · obtain ⟨d, found, inode⟩ := built.files index earlier
      exists d
      rw [others (index + 2) (by omega) (by rw [rootino]; omega),
        List.getElem_append_left earlier]
      exact ⟨found, inode⟩
    · obtain rfl : index = files.length := by omega
      exists grown
      rw [← number, finalRecord, update_self, List.getElem_concat_length rfl]
      exact ⟨rfl, file_inode_of_copied reads kept unchanged (started rfl)⟩

theorem add_files_built (files : List InputFile) :
    ∀ (image after : Image), files.foldlM addFile image = some after →
    image.freeblock ≤ after.freeblock ∧
    (after.freeblock ≤ ndatablocks → ∀ earlier, Built earlier image →
    Built (earlier ++ files) after) := by
  induction files with
  | nil =>
    intro image after added
    simp only [List.foldlM_nil, Option.pure_def, Option.some.injEq] at added
    subst added
    refine ⟨le_rfl, fun _ earlier built => ?_⟩
    rw [List.append_nil]
    exact built
  | cons file rest ih =>
    intro image after added
    simp only [List.foldlM_cons, Option.bind_eq_bind, Option.bind_eq_some_iff] at added
    obtain ⟨middle, first, added⟩ := added
    obtain ⟨firstBlocks, firstBuilt⟩ := add_file_built first
    obtain ⟨restBlocks, restBuilt⟩ := ih middle after added
    refine ⟨firstBlocks.trans restBlocks, fun small earlier built => ?_⟩
    have extended := restBuilt small _
      (firstBuilt (restBlocks.trans small) earlier built)
    rw [List.append_assoc] at extended
    exact extended

theorem blank_image_sound : Sound blankImage (view blankImage) := by
  have blank (sec : Nat) (other : sec ≠ 1) : blankImage.sector sec = blankBlock := by
    simp [blankImage, wsect, other]
  have unseen (inum : Nat) : view blankImage inum = Dinode.blank := rfl
  constructor
  · decide
  · simp only [blankImage, wsect]
    rw [update_self]
  · intro k q j _ _ _
    rw [blank _ (by rw [inodeBlock]; omega), read_dinode_blank, tenantInode]
    split
    · rfl
    · rfl
  · decide
  · constructor
    · intro inum place held
      rw [unseen, ref_at_blank] at held
      exact absurd rfl held
    · intro inum place _ _ held
      rw [unseen, ref_at_blank] at held
      exact absurd rfl held
    · intro v _ _
      apply blank
      rw [dblock_eq]
      omega

theorem mk_root_built (made : mkRoot blankImage = some after) :
    157 ≤ after.freeblock ∧ (after.freeblock ≤ ndatablocks → Built [] after) := by
  simp only [mkRoot, Option.bind_eq_bind, Option.bind_eq_some_iff, Prod.exists] at made
  obtain ⟨inum, first, allocated, _, _, second, dotAppended, dotDotAppended⟩ := made
  obtain ⟨rfl, counted, sameBlocks, record, allocatedSound⟩ := ialloc_allocated allocated
  obtain ⟨firstSound, group⟩ := allocatedSound blank_image_sound rfl
  have dotBlocks := iappend_appended dotAppended
  have dotDotBlocks := iappend_appended dotDotAppended
  have blocks : blankImage.freeblock ≤ after.freeblock :=
    sameBlocks ▸ Nat.le_trans dotBlocks.freeblock dotDotBlocks.freeblock
  refine ⟨blocks, ?_⟩
  intro small
  obtain ⟨secondSound, partway, secondRecord, dotKept, -⟩ :=
    dotBlocks.sound (Nat.le_trans dotDotBlocks.freeblock small) firstSound
  obtain ⟨sound, root, finalRecord, dotDotKept, -⟩ := dotDotBlocks.sound small secondSound
  have start : blankImage.freeinode = 1 := rfl
  have final : after.freeinode = 2 := by
    rw [dotDotBlocks.freeinode, dotBlocks.freeinode, counted, start]
  have others (other : Nat) (different : other ≠ blankImage.freeinode) :
      after.written other = none := by
    rw [finalRecord, update_of_ne different, secondRecord,
      update_of_ne different, record, update_of_ne different]
    rfl
  constructor
  case sound => exact sound
  case freeinode => exact final
  case group =>
    intro other bound
    rw [blockgroups]
    omega
  case unwritten =>
    intro other beyond
    exact others other (by omega)
  case zero => exact others 0 (by decide)
  case root =>
    exists root
    rw [finalRecord]
    refine ⟨update_self _ _ _, ?_⟩
    rw [dotDotKept.type, view, secondRecord, update_self, Option.getD_some,
      dotKept.type, view, record, update_self]
    rfl
  case files =>
    intro index bound
    exact absurd bound (Nat.not_lt_zero index)

variable {files : List InputFile}

theorem fix_root_size_built (fixed : fixRootSize image = some after) :
    image.freeblock = after.freeblock ∧ (Built files image → Built files after) := by
  simp only [fixRootSize, Option.bind_eq_bind, Option.bind_eq_some_iff] at fixed
  obtain ⟨din, read, written⟩ := fixed
  obtain ⟨record, freeinode, freeblock⟩ := winode_counters written
  refine ⟨freeblock.symm, ?_⟩
  intro built
  obtain ⟨rfl, -⟩ := rinode_view built.sound read
  have sound : Sound image (update (view image) rootino (view image rootino)) := by
    rw [update_eq_self]
    exact built.sound
  have number := built.freeinode
  have others (other : Nat) (different : other ≠ rootino) :
      after.written other = image.written other := by
    rw [record, update_of_ne different]
  constructor
  case sound => exact (winode_keeps sound (by rfl) written).1
  case freeinode => exact freeinode.trans number
  case group =>
    rw [freeinode]
    exact built.group
  case unwritten =>
    intro other beyond
    rw [others other (by rw [rootino]; omega)]
    exact built.unwritten other (by omega)
  case zero =>
    rw [others 0 (by decide)]
    exact built.zero
  case root =>
    obtain ⟨d, found, directory⟩ := built.root
    refine ⟨_, by rw [record, update_self], ?_⟩
    rw [view, found]
    exact directory
  case files =>
    intro index bound
    rw [others (index + 2) (by rw [rootino]; omega)]
    exact built.files index bound

theorem balloc_eq {used : Nat} (marked : balloc used image = some after) :
    used < bpb ∧ after = wsect sb.bgstart (bitmap used) image := by
  rw [balloc] at marked
  split at marked
  · rename_i small
    exact ⟨small, (Option.some.inj marked).symm⟩
  · contradiction

theorem write_bitmap_sound {inodes : Nat → Dinode} (sound : Sound image inodes) (content : Buffer) :
    Sound (wsect sb.bgstart content image) inodes := by
  have start : sb.bgstart = 32 := rfl
  refine ⟨?_, ?_, ?_, sound.started, ?_⟩
  · have length := sound.length
    simp only [wsect, start, length]
    decide
  · exact sound.super
  · intro k q j group block slot
    simp only [wsect, start]
    rw [update_of_ne (by rw [inodeBlock]; omega)]
    exact sound.slots k q j group block slot
  · apply sound.owned.frame
    · intro _
      rfl
    · intro v _
      simp only [wsect, start]
      apply update_of_ne
      rw [dblock_eq]
      omega

theorem balloc_built {used : Nat} (marked : balloc used image = some after)
    (built : Built files image) : Built files after := by
  obtain ⟨-, rfl⟩ := balloc_eq marked
  exact ⟨write_bitmap_sound built.sound _, built.freeinode, built.group, built.unwritten,
    built.zero, built.root, built.files⟩

theorem mkfs_built (accepted : mkfs files = some image) : Built files image := by
  simp only [mkfs, Option.bind_eq_bind, Option.bind_eq_some_iff] at accepted
  obtain ⟨rooted, made, filled, added, fixed, resized, marked⟩ := accepted
  have small : fixed.freeblock < ndatablocks := (balloc_eq marked).1
  obtain ⟨sameBlocks, keeps⟩ := fix_root_size_built resized
  obtain ⟨moreBlocks, grows⟩ := add_files_built files rooted filled added
  obtain ⟨-, starts⟩ := mk_root_built made
  exact balloc_built marked (keeps (grows (by omega) [] (starts (by omega))))

theorem bitmap_bit (used bit : Nat) : bitSet (bitmap used) bit = decide (bit < used) := by
  induction used with
  | zero => simp [bitmap, bit_set_eq, blankBlock]
  | succ used ih =>
    rw [bitmap, bit_set_set_bit, ih]
    by_cases last : bit = used
    · simp [last]
    · simp only [last, decide_false, Bool.false_or]
      apply decide_eq_decide.mpr
      omega

theorem mkfs_bitmap (accepted : mkfs files = some image) :
    image.sector sb.bgstart = bitmap image.freeblock ∧
    157 ≤ image.freeblock ∧ image.freeblock < bpb := by
  simp only [mkfs, Option.bind_eq_bind, Option.bind_eq_some_iff] at accepted
  obtain ⟨rooted, made, filled, added, fixed, resized, marked⟩ := accepted
  have started := (mk_root_built made).1
  have moreBlocks := (add_files_built files rooted filled added).1
  have sameBlocks := (@fix_root_size_built _ _ files resized).1
  obtain ⟨small, rfl⟩ := balloc_eq marked
  refine ⟨?_, by simp only [wsect]; omega, small⟩
  simp only [wsect]
  rw [update_self]

theorem dirent_length (inum : Nat) (name : List Byte) : (dirent inum name).length = 16 := by
  simp [dirent, dirsiz]

theorem ialloc_succeeds (type : BitVec 16) (sound : Sound image (view image))
    (group : image.freeinode / 29 < blockgroups) :
    ∃ after, ialloc type image = some (image.freeinode, after) := by
  have counted : Sound { image with freeinode := image.freeinode + 1 } (view image) :=
    ⟨sound.length, sound.super, sound.slots, sound.started, sound.owned⟩
  obtain ⟨after, written⟩ := winode_succeeds counted image.freeinode (newInode type) group
  exists after
  simp only [ialloc, written, Option.bind_eq_bind, Option.bind_some]

/-- The root directory has an entry for each file and takes few blocks. -/
structure Roomy (files : List InputFile) (image : Image) : Prop where
  built : Built files image
  size : (view image rootino).size.toNat = 16 * (files.length + 2)
  blocks : image.freeblock ≤ 157 + 32 * (files.length + 2)

theorem add_empty_file_succeeds {file : InputFile} (roomy : Roomy files image)
    (few : files.length < 100) (empty : file.reads = some []) (plain : slash ∉ file.name) :
    ∃ after, addFile image file = some after ∧ Roomy (files ++ [file]) after := by
  have number := roomy.built.freeinode
  have size := roomy.size
  have blocks := roomy.blocks
  have total := ndatablocks_value
  have limit : maxfile * bsize = 71680 := by decide
  obtain ⟨first, allocated⟩ :=
    ialloc_succeeds tFile roomy.built.sound (by rw [number, blockgroups]; omega)
  obtain ⟨-, -, sameBlocks, record, allocatedSound⟩ := ialloc_allocated allocated
  obtain ⟨firstSound, -⟩ :=
    allocatedSound roomy.built.sound (roomy.built.unwritten _ le_rfl)
  have rootSame : view first rootino = view image rootino := by
    rw [view_written record, update_of_ne]
    rw [number, rootino]
    omega
  have long := dirent_length image.freeinode (stripName file.name)
  rcases iappend_succeeds rootino (dirent image.freeinode (stripName file.name)) firstSound
      (by decide) (by rw [rootSame, long]; omega) (by rw [long]; omega) with
    ⟨after, appended, grown, taken⟩
  have added : addFile image file = some after := by
    simp [addFile, plain, empty, allocated, appended, copyReads]
  exists after
  refine ⟨added, (add_file_built added).2 (by rw [long] at taken; omega) files roomy.built,
    ?_, ?_⟩
  · rw [grown, rootSame, long, size, List.length_append, List.length_singleton]
    omega
  · rw [List.length_append, List.length_singleton]
    rw [long] at taken
    omega

theorem add_empty_files_succeed (files : List InputFile)
    (empty : ∀ file ∈ files, file.reads = some [] ∧ slash ∉ file.name) :
    ∀ (earlier : List InputFile) (image : Image), Roomy earlier image →
    earlier.length + files.length ≤ 100 →
    ∃ after, files.foldlM addFile image = some after ∧ Roomy (earlier ++ files) after := by
  induction files with
  | nil =>
    intro earlier image roomy _
    exists image
    rw [List.append_nil]
    exact ⟨rfl, roomy⟩
  | cons file rest ih =>
    intro earlier image roomy few
    rw [List.length_cons] at few
    obtain ⟨unread, plain⟩ := empty file (.head _)
    obtain ⟨middle, added, more⟩ := add_empty_file_succeeds roomy (by omega) unread plain
    rcases ih (fun later member => empty later (.tail file member))
        (earlier ++ [file]) middle more
        (by rw [List.length_append, List.length_singleton]; omega) with
      ⟨after, folded, final⟩
    exists after
    rw [List.append_assoc] at final
    refine ⟨?_, final⟩
    simp only [List.foldlM_cons, added, Option.bind_eq_bind, Option.bind_some, folded]

theorem mk_root_succeeds : ∃ after, mkRoot blankImage = some after ∧ Roomy [] after := by
  have limit : maxfile * bsize = 71680 := by decide
  have total := ndatablocks_value
  have start : blankImage.freeblock = 157 := by decide
  obtain ⟨first, allocated⟩ := ialloc_succeeds tDir blank_image_sound (by decide)
  obtain ⟨-, -, sameBlocks, record, allocatedSound⟩ := ialloc_allocated allocated
  obtain ⟨firstSound, -⟩ := allocatedSound blank_image_sound rfl
  have rootNew : (view first 1).size.toNat = 0 := by
    rw [view, record]
    rfl
  have long (name : List Byte) := dirent_length 1 name
  rcases iappend_succeeds 1 (dirent 1 [dot]) firstSound (by decide)
      (by rw [rootNew, long]; omega) (by rw [long]; omega) with
    ⟨second, dotAppended, dotSize, dotTaken⟩
  rw [long] at dotSize dotTaken
  obtain ⟨secondSound, -⟩ := (iappend_appended dotAppended).sound (by omega) firstSound
  rcases iappend_succeeds 1 (dirent 1 [dot, dot]) secondSound (by decide)
      (by rw [dotSize, long]; omega) (by rw [long]; omega) with
    ⟨after, dotDotAppended, dotDotSize, dotDotTaken⟩
  rw [long] at dotDotSize dotDotTaken
  have made : mkRoot blankImage = some after := by
    simp only [mkRoot, allocated, Option.bind_eq_bind, Option.bind_some]
    rw [show blankImage.freeinode = 1 by rfl, dotAppended]
    exact dotDotAppended
  refine ⟨after, made, (mk_root_built made).2 (by omega), ?_, ?_⟩
  · rw [rootino, dotDotSize, dotSize, rootNew]
    rfl
  · rw [List.length_nil]
    omega

theorem mkfs_accepts_empty_files (files : List InputFile) (few : files.length ≤ 100)
    (empty : ∀ file ∈ files, file.reads = some [] ∧ slash ∉ file.name) :
    ∃ image, mkfs files = some image ∧ image.freeblock ≤ 157 + 32 * (files.length + 2) := by
  obtain ⟨rooted, made, start⟩ := mk_root_succeeds
  obtain ⟨filled, added, roomy⟩ :=
    add_empty_files_succeed files empty [] rooted start (by simpa using few)
  rw [List.nil_append] at roomy
  have blocks := roomy.blocks
  rcases Option.eq_none_or_eq_some (rinode rootino filled) with unread | ⟨din, read⟩
  · simp [rinode, iblock_readable roomy.built.sound rootino (by decide)] at unread
  rcases winode_succeeds roomy.built.sound rootino
      { din with size := BitVec.ofNat 32 ((din.size.toNat / bsize + 1) * bsize) }
      (by decide) with ⟨fixed, written⟩
  have resized : fixRootSize filled = some fixed := by
    simp only [fixRootSize, read, written, Option.bind_eq_bind, Option.bind_some]
  have sameBlocks := (winode_counters written).2.2
  have total := bpb_value
  simp only [mkfs, made, added, resized, Option.bind_eq_bind, Option.bind_some, balloc]
  rw [if_pos (by omega)]
  exact ⟨_, rfl, sameBlocks ▸ blocks⟩

theorem image_superblock (built : Built files image) : readsb image.sector = sb := by
  rw [readsb, built.sound.super]
  apply read_write_superblock
  decide

def loadedFrom (inum : Nat) : Nat := tenant (inum / 29) (inum % 29 / 8) (inum % 29 % 8)

def EmptyFileAt (files : List InputFile) (inum : Nat) : Prop :=
  ∃ index, ∃ bound : index < files.length,
    index + 2 = inum ∧ InputFile.isEmpty files[index] = true

/-- The kernel looks in the right slot, or finds the inode of another empty file where
that of an empty file should be. -/
def SlotAgrees (files : List InputFile) (inum : Nat) : Prop :=
  inum / ipbg % ipb = 0 ∨
    (EmptyFileAt files inum ∧ loadedFrom inum / ipbg = inum / ipbg ∧
      EmptyFileAt files (loadedFrom inum))

theorem loaded_in_group_iff (inum : Nat) : loadedFrom inum / 29 = inum / 29 ↔
    8 * (inum % 29 / 8) + (inum % 29 % 8 + 3 * (inum / 29)) % 8 < 29 := by
  rw [loadedFrom, tenant]
  omega

theorem loaded_from_self_iff (inum : Nat) : loadedFrom inum = inum ↔ inum / 29 % 8 = 0 := by
  rw [loadedFrom, tenant]
  omega

theorem kernel_load (built : Built files image) (inum : Nat)
    (group : inum / 29 < blockgroups) : loadDinode image.sector (readsb image.sector) inum =
      if loadedFrom inum / 29 = inum / 29 then view image (loadedFrom inum) else Dinode.blank := by
  rw [image_superblock built, loadDinode, iblock_inode_block, sb, dinodeoffset_eq,
    built.sound.slots _ _ _ group (by omega) (by omega), tenantInode]
  simp only [loaded_in_group_iff]
  rfl

theorem loaded_from_injective (left right : Nat) (leftIn : loadedFrom left / 29 = left / 29)
    (rightIn : loadedFrom right / 29 = right / 29) (same : loadedFrom left = loadedFrom right) :
    left = right := by
  rw [same] at leftIn
  have group : left / 29 = right / 29 := leftIn.symm.trans rightIn
  rw [loadedFrom, loadedFrom, tenant, tenant, group] at same
  omega

section
variable (built : Built files image)
include built

theorem Built.file_inode (inum : Nat) (notRoot : 2 ≤ inum) (allocated : inum < image.freeinode) :
    ∃ index, ∃ bound : index < files.length, index + 2 = inum ∧
    ∃ d, image.written inum = some d ∧ FileInode files[index] d := by
  have number := built.freeinode
  have bound : inum - 2 < files.length := by omega
  obtain ⟨d, found, inode⟩ := built.files (inum - 2) bound
  rw [Nat.sub_add_cancel notRoot] at found
  exact ⟨inum - 2, bound, Nat.sub_add_cancel notRoot, d, found, inode⟩

theorem Built.empty_file_iff (inum : Nat) (notRoot : 2 ≤ inum)
    (allocated : inum < image.freeinode) :
    EmptyFileAt files inum ↔ image.written inum = some (newInode tFile) := by
  obtain ⟨index, bound, rfl, d, found, inode⟩ := built.file_inode inum notRoot allocated
  rw [found, Option.some.injEq]
  constructor
  · rintro ⟨other, otherBound, same, empty⟩
    obtain rfl : other = index := by omega
    exact inode.empty empty
  · rintro rfl
    exists index, bound
    refine ⟨rfl, ?_⟩
    by_contra nonempty
    exact inode.filled (by simpa using nonempty) (Dinode.blank_addr 0)

/-- Two input files have the same inode only if both are empty: a first block belongs
to one file. -/
theorem Built.same_inode_iff (inum other : Nat) (notRoot : 2 ≤ inum) (otherNotRoot : 2 ≤ other)
    (bound : inum < image.freeinode) (otherBound : other < image.freeinode)
    (different : other ≠ inum) : image.written other = image.written inum ↔
    EmptyFileAt files inum ∧ EmptyFileAt files other := by
  rw [built.empty_file_iff inum notRoot bound, built.empty_file_iff other otherNotRoot otherBound]
  obtain ⟨index, inList, -, d, found, inode⟩ := built.file_inode inum notRoot bound
  constructor
  · intro same
    have empty : d = newInode tFile := by
      apply inode.empty
      by_contra nonempty
      have held := inode.filled (by simpa using nonempty)
      have here : view image inum = d := by rw [view, found]; rfl
      have there : view image other = d := by rw [view, same, found]; rfl
      have owned := built.sound.owned.distinct inum (.addr 0) other (.addr 0)
      rw [here, there] at owned
      exact different (owned held rfl).1.symm
    rw [same, found, empty]
    exact ⟨rfl, rfl⟩
  · intro both
    rw [both.1, both.2]

theorem Built.misaligned_load_iff (inum : Nat) (bound : inum < image.freeinode)
    (misaligned : inum / 29 % 8 ≠ 0) :
    some (loadDinode image.sector (readsb image.sector) inum) = image.written inum ↔
    EmptyFileAt files inum ∧ loadedFrom inum / 29 = inum / 29 ∧
    EmptyFileAt files (loadedFrom inum) := by
  have different : loadedFrom inum ≠ inum := fun same =>
    misaligned ((loaded_from_self_iff inum).mp same)
  obtain ⟨index, inList, -, d, found, inode⟩ := built.file_inode inum (by omega) bound
  have notBlank : Dinode.blank ≠ d := by
    rintro rfl
    exact absurd inode.type (by decide)
  rw [kernel_load built inum (built.group inum bound)]
  by_cases inGroup : loadedFrom inum / 29 = inum / 29
  · rw [if_pos inGroup]
    by_cases allocated : loadedFrom inum < image.freeinode
    · have pair := built.same_inode_iff inum (loadedFrom inum) (by omega) (by omega) bound
        allocated different
      obtain ⟨-, -, -, e, otherFound, -⟩ := built.file_inode (loadedFrom inum) (by omega) allocated
      rw [view, otherFound, Option.getD_some, ← otherFound, pair]
      simp [inGroup]
    · have unseen := built.unwritten (loadedFrom inum) (by omega)
      rw [view, unseen, found]
      simp only [Option.getD_none, Option.some.injEq, notBlank, false_iff, not_and]
      rintro - - ⟨other, otherBound, position, -⟩
      have number := built.freeinode
      omega
  · rw [if_neg inGroup, found]
    simp [notBlank, inGroup]

end

/-- The dinode the kernel loads is the one `mkfs` last wrote for that number exactly
if the slots agree. -/
theorem kernel_loads_written_inode_iff (files : List InputFile) (image : Image)
    (accepted : mkfs files = some image) (inum : Nat)
    (allocated : 0 < inum ∧ inum < image.freeinode) :
    some (loadDinode image.sector (readsb image.sector) inum) = image.written inum ↔
      SlotAgrees files inum := by
  have built := mkfs_built accepted
  obtain ⟨positive, bound⟩ := allocated
  rw [SlotAgrees, ipbg_value, ipb_value]
  by_cases aligned : inum / 29 % 8 = 0
  · have same := (loaded_from_self_iff inum).mpr aligned
    have written : ∃ d, image.written inum = some d := by
      by_cases root : inum = rootino
      · rw [root]
        obtain ⟨d, found, -⟩ := built.root
        exact ⟨d, found⟩
      · have notRoot : 2 ≤ inum := by
          rw [rootino] at root
          omega
        obtain ⟨-, -, -, d, found, -⟩ := built.file_inode inum notRoot bound
        exact ⟨d, found⟩
    obtain ⟨d, found⟩ := written
    rw [kernel_load built inum (built.group inum bound), same, if_pos rfl, view, found]
    simp [aligned]
  · rw [built.misaligned_load_iff inum bound aligned]
    simp [aligned]

theorem kernel_loads_root_inode : ∃ image, mkfs [] = some image ∧ (0 < 1 ∧ 1 < image.freeinode) ∧
      (some (loadDinode image.sector (readsb image.sector) 1) = image.written 1 ↔
        SlotAgrees [] 1) := by
  obtain ⟨image, accepted, -⟩ := mkfs_accepts_empty_files [] (by decide) (by simp)
  have number := (mkfs_built accepted).freeinode
  have allocated : 0 < 1 ∧ 1 < image.freeinode := by
    rw [number]
    decide
  exact ⟨image, accepted, allocated, kernel_loads_written_inode_iff [] image accepted 1 allocated⟩

def emptyFile : InputFile where
  name := [0x61]
  reads := some []
  fits := by simp

/-- With 28 empty files inode 29 is the first of the second group. `mkfs` writes it
to slot 5 and the kernel reads slot 0. -/
theorem second_group_inode_not_found :
    ¬ ∀ (files : List InputFile) (image : Image), mkfs files = some image →
      ∀ inum, 0 < inum ∧ inum < image.freeinode →
        some (loadDinode image.sector (readsb image.sector) inum) = image.written inum := by
  intro agrees
  have plain : ∀ file ∈ List.replicate 28 emptyFile, file.reads = some [] ∧ slash ∉ file.name := by
    intro file member
    rw [List.eq_of_mem_replicate member]
    decide
  obtain ⟨image, accepted, -⟩ :=
    mkfs_accepts_empty_files (List.replicate 28 emptyFile) (by decide) plain
  have built := mkfs_built accepted
  have number : image.freeinode = 30 := built.freeinode
  have loaded := agrees _ image accepted 29 (by omega)
  rw [built.misaligned_load_iff 29 (by omega) (by decide)] at loaded
  obtain ⟨-, -, index, bound, position, -⟩ := loaded
  rw [List.length_replicate] at bound
  have other : loadedFrom 29 = 32 := by decide
  omega

end Xv6Hacks.MkfsInodes
