import Xv6Hacks.FileContents

/-!
# Files as byte arrays

Seen from its calls the file system is a map from inode numbers to byte strings: `writei`
overwrites a range and may append, `readi` returns a range, `itrunc` empties. The calls
stop only when the bitmap has no clear bit left.
-/

namespace Xv6Hacks.FileArrays

open BlockOwnership ByteBuffers ClassicFs Function
open BlockGroupLayout (bsize ipb_value maxfile ndirect nindirect sizeofUint)
open Xv6Hacks.DiskFormat (Dinode blankBlock readDinode read_dinode_blank
  read_write_dinode_other read_write_dinode_same tDev tDir tFile writeDinode)
open FileBlocks FileContents FileMapping Outcomes WriteSequences

abbrev Contents := Nat → List Byte

def overwrite (bytes : List Byte) (off : Nat) (src : List Byte) : List Byte :=
  bytes.take off ++ src ++ bytes.drop (off + src.length)

def nothing : Answer := { value := 0, bytes := [] }

def specStep (contents : Contents) : Call → Answer × Contents
  | .readi inum off n =>
    if (contents inum).length < off ∨ 2 ^ 32 ≤ off + n then (failed, contents)
    else
      let bytes := ((contents inum).drop off).take n
      ({ value := bytes.length, bytes := bytes }, contents)
  | .writei inum src off =>
    if (contents inum).length < off ∨ 2 ^ 32 ≤ off + src.length ∨
        maxfile * bsize < off + src.length then (failed, contents)
    else
      ({ value := src.length, bytes := [] },
        update contents inum (overwrite (contents inum) off src))
  | .itrunc inum => (nothing, update contents inum [])
  | .evict _ => (nothing, contents)

def specRun (contents : Contents) : List Call → List Answer × Contents
  | [] => ([], contents)
  | call :: rest =>
    let first := specStep contents call
    let later := specRun first.2 rest
    (first.1 :: later.1, later.2)

def current (sys : Sys) (inum : Nat) : Dinode :=
  (sys.icache inum).getD (loadDinode sys.fs inum)

def Allocated (sys : Sys) (inum : Nat) : Prop :=
  inum < sys.fs.sb.ninodes ∧ (current sys inum).type ≠ 0

instance (sys : Sys) (inum : Nat) : Decidable (Allocated sys inum) :=
  inferInstanceAs (Decidable (_ ∧ _))

def IsFile (sys : Sys) (inum : Nat) : Prop :=
  inum < sys.fs.sb.ninodes ∧
    ((current sys inum).type = tFile ∨ (current sys inum).type = tDir)

def inodes (sys : Sys) (inum : Nat) : Dinode :=
  if Allocated sys inum then current sys inum else Dinode.blank

def stringOf (disk : Store Buffer) (d : Dinode) : List Byte :=
  (List.range d.size.toNat).map fun i => fileByte disk d i

def contentsOf (sys : Sys) : Contents := fun inum => stringOf sys.fs.disk (inodes sys inum)

/-- No block is referred to twice, the blocks referred to are data blocks and marked in the
bitmap like the metadata, and no file is longer than a file can be. -/
structure Consistent (sys : Sys) : Prop where
  held : Held sys.fs (inodes sys) []
  sizes : ∀ inum, IsFile sys inum → (current sys inum).size.toNat ≤ maxfile * bsize

/-- All blocks of the file are there, and memory and disk agree on its inode. -/
structure Solid (sys : Sys) (inum : Nat) : Prop where
  mapped : ∀ i, i < (current sys inum).size.toNat →
    refAt sys.fs.disk (current sys inum) (blockPlace (i / bsize)) ≠ 0
  saved : current sys inum = loadDinode sys.fs inum

section Strings
theorem string_of_congr {disk disk' : Store Buffer} {d d' : Dinode} (size : d'.size = d.size)
    (bytes : ∀ i, fileByte disk' d' i = fileByte disk d i) :
    stringOf disk' d' = stringOf disk d := by
  unfold stringOf
  rw [size]
  exact List.map_congr_left fun i _ => bytes i

theorem range_string (f : Nat → Byte) {size off n : Nat} (inside : off ≤ size) :
    (((List.range size).map f).drop off).take n =
      (List.range (if size < off + n then size - off else n)).map fun k => f (off + k) := by
  apply List.ext_getElem
  · simp only [List.length_take, List.length_drop, List.length_map, List.length_range]
    split
    · omega
    · omega
  · intro k left right
    simp

theorem overwrite_string (f : Nat → Byte) {size off : Nat} (src : List Byte) (inside : off ≤ size) :
    overwrite ((List.range size).map f) off src =
      (List.range (max size (off + src.length))).map fun i =>
        if off ≤ i ∧ i < off + src.length then src.getD (i - off) 0 else f i := by
  apply List.ext_getElem
  · simp only [overwrite, List.length_append, List.length_take, List.length_drop,
      List.length_map, List.length_range]
    omega
  · intro i left right
    simp only [overwrite, List.getElem_map, List.getElem_range, List.getElem_append,
      List.length_append, List.length_take, List.length_map, List.length_range,
      List.getElem_take, List.getElem_drop]
    by_cases before : i < off
    · rw [dif_pos (by omega), dif_pos (by omega), if_neg (by omega)]
    · by_cases within : i < off + src.length
      · rw [dif_pos (by omega), dif_neg (by omega), if_pos ⟨by omega, within⟩,
          List.getD_eq_getElem _ _ (by omega)]
        congr 1
        omega
      · rw [dif_neg (by omega), if_neg (by omega)]
        congr 1
        omega

end Strings

theorem IsFile.allocated {sys : Sys} {inum : Nat} (file : IsFile sys inum) :
    Allocated sys inum := by
  refine ⟨file.1, ?_⟩
  rcases file.2 with isFile | isDir
  · rw [isFile]
    decide
  · rw [isDir]
    decide

theorem inodes_allocated {sys : Sys} {inum : Nat} (allocated : Allocated sys inum) :
    inodes sys inum = current sys inum := if_pos allocated

structure Called (sys : Sys) (inum : Nat) (ip' : Inode) (fs' : Fs) : Prop where
  same : ip'.inum = inum
  type : ip'.din.type = (current sys inum).type
  size : ip'.din.size.toNat ≤ maxfile * bsize
  sb : fs'.sb = sys.fs.sb
  held : Held fs' (update (inodes sys) inum ip'.din) []
  loads : ∀ other, other < sys.fs.sb.ninodes → other ≠ inum →
    loadDinode fs' other = loadDinode sys.fs other
  bytes : ∀ other i, other ≠ inum →
    fileByte fs'.disk (inodes sys other) i = fileByte sys.fs.disk (inodes sys other) i
  refs : ∀ other place, other ≠ inum →
    refAt fs'.disk (inodes sys other) place = refAt sys.fs.disk (inodes sys other) place
  solid : Solid sys inum → ip'.din = loadDinode fs' inum ∧
    ∀ i, i < ip'.din.size.toNat → refAt fs'.disk ip'.din (blockPlace (i / bsize)) ≠ 0

section Calling
variable {sys : Sys} {inum : Nat} {ip' : Inode} {fs' : Fs}

theorem put_current_own (sys : Sys) (fs' : Fs) (answer : Answer) (same : ip'.inum = inum) :
    current (putBack sys (answer, ip', fs')).2 inum = ip'.din := by
  unfold current putBack
  simp only [same, update_self, Option.getD_some]

section
variable (called : Called sys inum ip' fs')
include called

theorem Called.current_other (answer : Answer) {other : Nat} (inside : other < sys.fs.sb.ninodes)
    (different : other ≠ inum) :
    current (putBack sys (answer, ip', fs')).2 other = current sys other := by
  unfold current putBack
  simp only [called.same, update_of_ne different, called.loads other inside different]

theorem Called.inodes_after (file : IsFile sys inum) (answer : Answer) :
    inodes (putBack sys (answer, ip', fs')).2 = update (inodes sys) inum ip'.din := by
  have ninodes : (putBack sys (answer, ip', fs')).2.fs.sb.ninodes = sys.fs.sb.ninodes := by
    unfold putBack
    rw [called.sb]
  funext other
  by_cases same : other = inum
  · subst same
    have own := put_current_own sys fs' answer called.same
    have allocated : Allocated (putBack sys (answer, ip', fs')).2 other := by
      refine ⟨by rw [ninodes]; exact file.1, ?_⟩
      rw [own, called.type]
      exact file.allocated.2
    rw [inodes_allocated allocated, own, update_self]
  · rw [update_of_ne same]
    by_cases inside : other < sys.fs.sb.ninodes
    · have kept := called.current_other answer inside same
      have allocated : Allocated (putBack sys (answer, ip', fs')).2 other ↔
          Allocated sys other := by
        unfold Allocated
        rw [ninodes, kept]
      unfold inodes
      simp only [allocated, kept]
    · unfold inodes
      rw [if_neg fun allocated => inside (by rw [← ninodes]; exact allocated.1),
        if_neg fun allocated => inside allocated.1]

theorem Called.is_file (answer : Answer) (other : Nat) :
    IsFile (putBack sys (answer, ip', fs')).2 other ↔ IsFile sys other := by
  have ninodes : (putBack sys (answer, ip', fs')).2.fs.sb.ninodes = sys.fs.sb.ninodes := by
    unfold putBack
    rw [called.sb]
  unfold IsFile
  rw [ninodes]
  by_cases inside : other < sys.fs.sb.ninodes
  · by_cases same : other = inum
    · subst same
      rw [put_current_own sys fs' answer called.same, called.type]
    · rw [called.current_other answer inside same]
  · tauto

theorem Called.consistent (consistent : Consistent sys) (file : IsFile sys inum) (answer : Answer) :
    Consistent (putBack sys (answer, ip', fs')).2 := by
  refine ⟨?_, ?_⟩
  · rw [called.inodes_after file answer]
    exact called.held
  · intro other isFile
    have before := (called.is_file answer other).mp isFile
    by_cases same : other = inum
    · subst same
      rw [put_current_own sys fs' answer called.same]
      exact called.size
    · rw [called.current_other answer before.1 same]
      exact consistent.sizes other before

theorem Called.contents (file : IsFile sys inum) (answer : Answer) :
    contentsOf (putBack sys (answer, ip', fs')).2 =
    update (contentsOf sys) inum (stringOf fs'.disk ip'.din) := by
  funext other
  unfold contentsOf
  rw [called.inodes_after file answer]
  by_cases same : other = inum
  · subst same
    rw [update_self, update_self]
    rfl
  · rw [update_of_ne same, update_of_ne same]
    exact string_of_congr rfl fun i => called.bytes other i same

theorem Called.solid_after (answer : Answer) {other : Nat} (isFile : IsFile sys other)
    (solid : Solid sys other) : Solid (putBack sys (answer, ip', fs')).2 other := by
  by_cases same : other = inum
  · subst same
    obtain ⟨saved, mapped⟩ := called.solid solid
    have own := put_current_own sys fs' answer called.same
    refine ⟨?_, ?_⟩
    · rw [own]
      exact mapped
    · rw [own]
      exact saved
  · have kept := called.current_other answer isFile.1 same
    have refs := called.refs other
    rw [inodes_allocated isFile.allocated] at refs
    refine ⟨?_, ?_⟩
    · rw [kept]
      intro i inside
      have same := refs (blockPlace (i / bsize)) same
      rw [show (putBack sys (answer, ip', fs')).2.fs.disk = fs'.disk from rfl, same]
      exact solid.mapped i inside
    · rw [kept, solid.saved]
      exact (called.loads other isFile.1 same).symm

end

def locked (sys : Sys) (inum : Nat) : Inode := { inum := inum, din := current sys inum }

@[simp] theorem locked_inum (sys : Sys) (inum : Nat) : (locked sys inum).inum = inum := rfl

@[simp] theorem locked_din (sys : Sys) (inum : Nat) :
    (locked sys inum).din = current sys inum := rfl

theorem ilock_file (consistent : Consistent sys) (file : IsFile sys inum) :
    ilock sys inum = .ok (locked sys inum) := by
  have typed := file.allocated.2
  unfold ilock locked
  cases cached : sys.icache inum with
  | some din =>
    unfold current
    rw [cached]
    rfl
  | none =>
    have isCurrent : current sys inum = loadDinode sys.fs inum := by
      unfold current
      rw [cached]
      rfl
    have metadata : iblock inum sys.fs.sb < dataStart sys.fs.sb := by
      have place := (consistent.held.layout.iblock_place file.1).2
      unfold dataStart
      rw [bpb_value]
      omega
    rw [isCurrent] at typed ⊢
    simp only [bread_metadata consistent.held.layout (no_busy sys.fs) metadata, ok_bind]
    exact if_neg typed

theorem not_device (file : IsFile sys inum) : (current sys inum).type ≠ tDev := by
  rcases file.2 with isFile | isDir
  · rw [isFile]
    decide
  · rw [isDir]
    decide

theorem contents_file (file : IsFile sys inum) :
    contentsOf sys inum = stringOf sys.fs.disk (current sys inum) := by
  unfold contentsOf
  rw [inodes_allocated file.allocated]

theorem contents_length (file : IsFile sys inum) :
    (contentsOf sys inum).length = (current sys inum).size.toNat := by
  rw [contents_file file]
  unfold stringOf
  rw [List.length_map, List.length_range]

theorem load_kept {fs : Fs} (layout : Layout fs.sb) (sb : fs'.sb = fs.sb)
    (blocks : ∀ block, block < fs.sb.bmapstart → fs'.disk block = fs.disk block) {other : Nat}
    (inside : other < fs.sb.ninodes) : loadDinode fs' other = loadDinode fs other := by
  unfold loadDinode
  rw [sb, blocks _ (layout.iblock_place inside).2]

theorem locked_inode (file : IsFile sys inum) :
    inodes sys (locked sys inum).inum = (locked sys inum).din :=
  inodes_allocated file.allocated

theorem extended_called (consistent : Consistent sys) (file : IsFile sys inum)
    (extended : Extended (inodes sys) sys.fs (locked sys inum) fs' ip')
    (bytes : ∀ other i, other ≠ inum →
    fileByte fs'.disk (inodes sys other) i = fileByte sys.fs.disk (inodes sys other) i)
    (solid : Solid sys inum → ip'.din = (locked sys inum).din) : Called sys inum ip' fs' := by
  have size : ip'.din.size = (current sys inum).size := by
    rw [extended.fields]
    rfl
  have loads {other : Nat} (inside : other < sys.fs.sb.ninodes) :=
    load_kept consistent.held.layout extended.sb extended.inodeBlocks inside
  refine
    { same := extended.inum
      type := by rw [extended.fields]; rfl
      size := by rw [size]; exact consistent.sizes inum file
      sb := extended.sb
      held := extended.held
      loads := fun other inside _ => loads inside
      bytes := bytes
      refs := extended.elsewhere
      solid := ?_ }
  intro isSolid
  refine ⟨?_, ?_⟩
  · rw [solid isSolid, loads file.1]
    exact isSolid.saved
  · rw [size]
    intro i inside
    exact extended.kept _ (isSolid.mapped i inside)

theorem unchanged_called (consistent : Consistent sys) (file : IsFile sys inum) :
    Called sys inum (locked sys inum) sys.fs :=
  extended_called consistent file (Extended.refl consistent.held (locked_inode file))
    (fun _ _ _ => rfl) fun _ => rfl

theorem readi_spec (devsw : Devsw) (consistent : Consistent sys) (file : IsFile sys inum)
    (off n : Nat) : Yields (readi devsw sys.fs (locked sys inum) off n)
    (fun result => Called sys inum result.2.1 result.2.2 ∧
    result.1 = (specStep (contentsOf sys) (.readi inum off n)).1 ∧
    stringOf result.2.2.disk result.2.1.din = contentsOf sys inum)
    (fun stop => stop = .outOfBlocks) := by
  have length := contents_length file
  have limit := consistent.sizes inum file
  unfold readi specStep
  simp only [locked_din, not_device file, length, ↓reduceIte]
  by_cases refused : (current sys inum).size.toNat < off ∨ 2 ^ 32 ≤ off + n
  · simp only [refused, ↓reduceIte]
    exact ⟨unchanged_called consistent file, rfl, (contents_file file).symm⟩
  · have inside : off ≤ (current sys inum).size.toNat := by omega
    simp only [refused, ↓reduceIte]
    have clipped : off + (if (current sys inum).size.toNat < off + n
        then (current sys inum).size.toNat - off else n) ≤ (current sys inum).size.toNat := by
      split
      · omega
      · omega
    apply (read_loop_spec _ off consistent.held (locked_inode file) (clipped.trans limit)).bind
    intro result read
    obtain ⟨bytes, ip', fs'⟩ := result
    obtain ⟨grown, isBytes, unchanged⟩ := read
    simp only at grown isBytes unchanged ⊢
    have isRange := range_string (fun i => fileByte sys.fs.disk (current sys inum) i) (n := n)
      inside
    have own (i : Nat) : fileByte fs'.disk ip'.din i =
        fileByte sys.fs.disk (current sys inum) i := by
      have same := grown.bytes inum i
      rw [locked_inum, update_self, inodes_allocated file.allocated] at same
      exact same
    refine ⟨extended_called consistent file grown.toExtended ?_ ?_, ?_, ?_⟩
    · intro other i different
      have same := grown.bytes other i
      rw [locked_inum, update_of_ne different] at same
      exact same
    · intro solid
      have same := unchanged fun i lower upper => solid.mapped i (by
        have bound := clipped
        exact upper.trans_le bound)
      rw [(Prod.ext_iff.mp same).1]
    · rw [contents_file file]
      unfold stringOf
      rw [isRange, isBytes, List.length_map, List.length_range]
      rfl
    · rw [contents_file file]
      refine string_of_congr ?_ own
      rw [grown.fields]
      rfl

variable {src : List Byte}

theorem wrote_own {off : Nat} (wrote : Wrote (inodes sys) sys.fs (locked sys inum) off src fs' ip')
    (file : IsFile sys inum) (i : Nat) :
    fileByte fs'.disk ip'.din i = if off ≤ i ∧ i < off + src.length then src.getD (i - off) 0
      else fileByte sys.fs.disk (current sys inum) i := by
  have bytes := wrote.bytes inum i
  rw [locked_inum, update_self, inodes_allocated file.allocated] at bytes
  simpa using bytes

theorem wrote_other {off : Nat}
    (wrote : Wrote (inodes sys) sys.fs (locked sys inum) off src fs' ip') (other i : Nat)
    (different : other ≠ inum) :
    fileByte fs'.disk (inodes sys other) i = fileByte sys.fs.disk (inodes sys other) i := by
  have bytes := wrote.bytes other i
  rw [locked_inum, update_of_ne different] at bytes
  simpa [different] using bytes

theorem overwritten_called {off : Nat} (consistent : Consistent sys) (file : IsFile sys inum)
    (wrote : Wrote (inodes sys) sys.fs (locked sys inum) off src fs' ip')
    (unchanged : RangeMapped sys.fs (locked sys inum) off src.length → ip' = locked sys inum)
    (start : off ≤ (current sys inum).size.toNat)
    (fits : off + src.length ≤ (current sys inum).size.toNat) : Called sys inum ip' fs' ∧
    stringOf fs'.disk ip'.din = overwrite (contentsOf sys inum) off src := by
  refine ⟨extended_called consistent file wrote.toExtended (wrote_other wrote) ?_, ?_⟩
  · intro solid
    rw [unchanged fun i lower upper => solid.mapped i (upper.trans_le fits)]
  · rw [contents_file file]
    unfold stringOf
    rw [overwrite_string _ src start, max_eq_left fits, wrote.fields]
    exact List.map_congr_left fun i _ => by
      rw [← wrote_own wrote file i, ← wrote.fields]

theorem appended_called {off : Nat} {fs'' : Fs} (file : IsFile sys inum) (layout : Layout sys.fs.sb)
    (wrote : Wrote (inodes sys) sys.fs (locked sys inum) off src fs' ip')
    (range : RangeMapped fs' ip' off src.length) (start : off ≤ (current sys inum).size.toNat)
    (longer : (current sys inum).size.toNat < off + src.length)
    (limit : off + src.length ≤ maxfile * bsize)
    (held : Held fs'' (update (inodes sys) inum (setSize ip' (off + src.length)).din) [])
    (saved : Saved fs' (setSize ip' (off + src.length)) fs'') :
    Called sys inum (setSize ip' (off + src.length)) fs'' ∧
    stringOf fs''.disk (setSize ip' (off + src.length)).din =
    overwrite (contentsOf sys inum) off src := by
  have same : (setSize ip' (off + src.length)).inum = inum := wrote.inum
  have size : (setSize ip' (off + src.length)).din.size.toNat = off + src.length := by
    unfold setSize
    rw [BitVec.toNat_ofNat, Nat.mod_eq_of_lt]
    have small : maxfile * bsize < 2 ^ 32 := by decide
    omega
  have ownRefs (place : Place) :
      refAt fs''.disk (setSize ip' (off + src.length)).din place =
        refAt fs'.disk ip'.din place := by
    have refs := Saved.same_refs saved wrote.held inum place
    rw [locked_inum, update_self] at refs
    rw [← refs]
    exact ref_at_congr _ _ _ _ rfl (fun _ => rfl) place
  have otherRefs (other : Nat) (place : Place) (different : other ≠ inum) :
      refAt fs''.disk (inodes sys other) place = refAt fs'.disk (inodes sys other) place := by
    have refs := Saved.same_refs saved wrote.held other place
    rw [locked_inum, update_of_ne different] at refs
    exact refs
  have ownBytes (i : Nat) : fileByte fs''.disk (setSize ip' (off + src.length)).din i =
      fileByte fs'.disk ip'.din i := by
    apply file_byte_congr (ownRefs _)
    intro present
    have used := wrote.held.used inum (blockPlace (i / bsize))
    rw [locked_inum, update_self] at used
    exact saved.data _ (used present).1
  have otherBytes (other i : Nat) (different : other ≠ inum) :
      fileByte fs''.disk (inodes sys other) i = fileByte fs'.disk (inodes sys other) i := by
    have bytes := Saved.same_bytes saved wrote.held other i
    rw [locked_inum, update_of_ne different] at bytes
    exact bytes
  refine ⟨?_, ?_⟩
  · refine
      { same := same
        type := by unfold setSize; rw [wrote.fields]; rfl
        size := by rw [size]; exact limit
        sb := saved.sb.trans wrote.sb
        held := held
        loads := ?_
        bytes := ?_
        refs := ?_
        solid := ?_ }
    · intro other inside different
      rw [saved.others other (by rw [same]; exact different),
        load_kept layout wrote.sb wrote.inodeBlocks inside]
    · intro other i different
      rw [otherBytes other i different, wrote_other wrote other i different]
    · intro other place different
      rw [otherRefs other place different]
      exact wrote.elsewhere other place different
    · intro solid
      refine ⟨?_, ?_⟩
      · rw [← saved.own, same]
      · rw [size]
        intro i inside
        rw [ownRefs]
        by_cases before : i < off
        · exact wrote.kept _ (solid.mapped i (by omega))
        · exact range i (by omega) inside
  · rw [contents_file file]
    unfold stringOf
    rw [overwrite_string _ src start, size, max_eq_right (by omega)]
    exact List.map_congr_left fun i _ => (ownBytes i).trans (wrote_own wrote file i)

theorem writei_spec (devsw : Devsw) (consistent : Consistent sys) (file : IsFile sys inum)
    (src : List Byte) (off : Nat) : Yields (writei devsw sys.fs (locked sys inum) src off)
    (fun result => Called sys inum result.2.1 result.2.2 ∧
    result.1 = (specStep (contentsOf sys) (.writei inum src off)).1 ∧
    stringOf result.2.2.disk result.2.1.din =
    (specStep (contentsOf sys) (.writei inum src off)).2 inum)
    (fun stop => stop = .outOfBlocks) := by
  have length := contents_length file
  unfold writei specStep
  simp only [locked_din, not_device file, length, ↓reduceIte]
  by_cases refused : (current sys inum).size.toNat < off ∨ 2 ^ 32 ≤ off + src.length
  · have spec : (current sys inum).size.toNat < off ∨ 2 ^ 32 ≤ off + src.length ∨
        maxfile * bsize < off + src.length := by tauto
    simp only [refused, spec, ↓reduceIte]
    exact ⟨unchanged_called consistent file, rfl, (contents_file file).symm⟩
  · by_cases long : maxfile * bsize < off + src.length
    · simp only [refused, long, or_true, ↓reduceIte]
      exact ⟨unchanged_called consistent file, rfl, (contents_file file).symm⟩
    · have start : off ≤ (current sys inum).size.toNat := by omega
      have accepted : ¬ ((current sys inum).size.toNat < off ∨ 2 ^ 32 ≤ off + src.length ∨
          maxfile * bsize < off + src.length) := by omega
      simp only [accepted, ↓reduceIte, update_self]
      simp only [refused, long, ↓reduceIte]
      apply (write_loop_spec src off consistent.held (locked_inode file) (by omega)).bind
      intro result written
      obtain ⟨last, ip', fs'⟩ := result
      obtain ⟨isLast, wrote, range, unchanged⟩ := written
      simp only at isLast wrote range unchanged ⊢
      subst isLast
      have size : ip'.din.size = (current sys inum).size := by
        rw [wrote.fields]
        rfl
      rw [size]
      by_cases longer : src ≠ [] ∧ (current sys inum).size.toNat < off + src.length
      · rw [if_pos longer]
        have held : Held fs' (update (inodes sys) ip'.inum ip'.din) [] := by
          rw [wrote.inum]
          exact wrote.held
        have sized := Held.set_size held (off + src.length)
        rw [wrote.inum] at sized
        rcases iupdate_saved (setSize ip' (off + src.length)) sized (by
          rw [wrote.sb]
          exact (congrArg (· < sys.fs.sb.ninodes) wrote.inum).mpr file.1) with
          ⟨fs'', updated, heldAfter, saved⟩
        rw [updated, ok_bind]
        rcases appended_called file consistent.held.layout wrote range start longer.2 (by omega)
          heldAfter saved with ⟨called, string⟩
        exact ⟨called, rfl, string⟩
      · rw [if_neg longer]
        have fits : off + src.length ≤ (current sys inum).size.toNat := by
          by_cases empty : src = []
          · rw [empty, List.length_nil]
            omega
          · by_contra short
            exact longer ⟨empty, by omega⟩
        obtain ⟨called, string⟩ := overwritten_called consistent file wrote unchanged start fits
        exact ⟨called, rfl, string⟩

theorem itrunc_called (consistent : Consistent sys) (file : IsFile sys inum) :
    ∃ ip' fs', itrunc sys.fs (locked sys inum) = .ok (ip', fs') ∧ Called sys inum ip' fs' ∧
    stringOf fs'.disk ip'.din = [] := by
  obtain ⟨ip', fs', truncated, same, held, fields, sb, own, loads, bytes, refs⟩ :=
    itrunc_spec consistent.held (locked_inode file) file.1
  have size : ip'.din.size.toNat = 0 := by
    rw [fields]
    rfl
  refine ⟨ip', fs', truncated, ?_, ?_⟩
  · refine
      { same := same
        type := by rw [fields]; rfl
        size := by rw [size]; exact Nat.zero_le _
        sb := sb
        held := held
        loads := loads
        bytes := bytes
        refs := refs
        solid := ?_ }
    intro _
    refine ⟨own.symm, ?_⟩
    rw [size]
    intro i none
    omega
  · unfold stringOf
    rw [size]
    rfl

structure Stepped (sys : Sys) (contents : Contents) (sys' : Sys) : Prop where
  consistent : Consistent sys'
  contents : contentsOf sys' = contents
  files : ∀ other, IsFile sys' other ↔ IsFile sys other
  solid : ∀ other, IsFile sys other → Solid sys other → Solid sys' other

theorem Called.stepped {contents : Contents} (called : Called sys inum ip' fs')
    (consistent : Consistent sys) (file : IsFile sys inum) (answer : Answer)
    (string : update (contentsOf sys) inum (stringOf fs'.disk ip'.din) = contents) :
    Stepped sys contents (putBack sys (answer, ip', fs')).2 where
  consistent := called.consistent consistent file answer
  contents := (called.contents file answer).trans string
  files := called.is_file answer
  solid := fun _ isFile => called.solid_after answer isFile

theorem evict_stepped (consistent : Consistent sys) (solid : Solid sys inum) :
    Stepped sys (contentsOf sys) { sys with icache := update sys.icache inum none } := by
  have same (other : Nat) :
      current { sys with icache := update sys.icache inum none } other =
        current sys other := by
    by_cases here : other = inum
    · subst here
      rw [solid.saved]
      unfold current
      simp only [update_self, Option.getD_none]
    · unfold current
      simp only [update_of_ne here]
  have kept : inodes { sys with icache := update sys.icache inum none } = inodes sys := by
    funext other
    have allocated :
        Allocated { sys with icache := update sys.icache inum none } other ↔
          Allocated sys other := by
      unfold Allocated
      rw [same]
    unfold inodes
    simp only [allocated, same]
  have files (other : Nat) :
      IsFile { sys with icache := update sys.icache inum none } other ↔
        IsFile sys other := by
    unfold IsFile
    rw [same]
  refine ⟨⟨?_, ?_⟩, ?_, files, ?_⟩
  · rw [kept]
    exact consistent.held
  · intro other isFile
    rw [same]
    exact consistent.sizes other ((files other).mp isFile)
  · unfold contentsOf
    rw [kept]
  · intro other _ isSolid
    refine ⟨?_, ?_⟩
    · rw [same]
      exact isSolid.mapped
    · rw [same]
      exact isSolid.saved

theorem step_spec (devsw : Devsw) (consistent : Consistent sys) (call : Call)
    (file : IsFile sys call.inum) (solid : ∀ inum, call = .evict inum → Solid sys inum) :
    Yields (step devsw sys call) (fun result => result.1 = (specStep (contentsOf sys) call).1 ∧
    Stepped sys (specStep (contentsOf sys) call).2 result.2) (fun stop => stop = .outOfBlocks) := by
  cases call with
  | readi inum off n =>
    have isFile : IsFile sys inum := file
    unfold step
    simp only
    rw [ilock_file consistent isFile, ok_bind]
    apply (readi_spec devsw consistent isFile off n).bind
    intro result read
    obtain ⟨called, answer, string⟩ := read
    have unchanged : (specStep (contentsOf sys) (.readi inum off n)).2 = contentsOf sys := by
      unfold specStep
      simp only
      split
      · rfl
      · rfl
    refine ⟨answer, called.stepped consistent isFile _ ?_⟩
    rw [string, unchanged, update_eq_self]
  | writei inum src off =>
    have isFile : IsFile sys inum := file
    unfold step
    simp only
    rw [ilock_file consistent isFile, ok_bind]
    apply (writei_spec devsw consistent isFile src off).bind
    intro result written
    obtain ⟨called, answer, string⟩ := written
    refine ⟨answer, called.stepped consistent isFile _ ?_⟩
    rw [string]
    unfold specStep
    simp only
    split
    · exact update_eq_self _ _
    · simp only [update_self]
  | itrunc inum =>
    have isFile : IsFile sys inum := file
    unfold step
    simp only
    rw [ilock_file consistent isFile, ok_bind]
    obtain ⟨ip', fs', truncated, called, string⟩ := itrunc_called consistent isFile
    rw [truncated, ok_bind]
    refine ⟨rfl, called.stepped consistent isFile _ ?_⟩
    rw [string]
    rfl
  | evict inum => exact ⟨rfl, evict_stepped consistent (solid inum rfl)⟩

end Calling

/-- Every run of calls on files answers and leaves what the byte strings say, and keeps the
image consistent. Copies in memory may be dropped for files whose blocks are all there. -/
theorem files_are_byte_arrays (devsw : Devsw) {sys : Sys} (consistent : Consistent sys)
    (calls : List Call) (files : ∀ call, call ∈ calls → IsFile sys call.inum)
    (solid : ∀ inum, Call.evict inum ∈ calls → Solid sys inum) : Yields (run devsw sys calls)
      (fun result => Consistent result.2 ∧ result.1 = (specRun (contentsOf sys) calls).1 ∧
        contentsOf result.2 = (specRun (contentsOf sys) calls).2)
      (fun stop => stop = .outOfBlocks) := by
  induction calls generalizing sys with
  | nil => exact ⟨consistent, rfl, rfl⟩
  | cons call rest ih =>
    rw [run]
    have file := files call (.head _)
    apply (step_spec devsw consistent call file fun inum isEvict =>
      solid inum (by rw [← isEvict]; exact .head _)).bind
    intro result stepped
    obtain ⟨answer, sys'⟩ := result
    obtain ⟨isAnswer, after⟩ := stepped
    simp only at isAnswer after ⊢
    apply (ih after.consistent
      (fun later member => (after.files _).mpr (files later (.tail call member)))
      (fun inum member => after.solid inum
        (files (.evict inum) (.tail call member))
        (solid inum (.tail call member)))).bind
    intro result later
    obtain ⟨answers, last⟩ := result
    obtain ⟨isConsistent, areAnswers, contents⟩ := later
    simp only at isConsistent areAnswers contents ⊢
    rw [after.contents] at areAnswers contents
    refine ⟨isConsistent, ?_, contents⟩
    rw [isAnswer, areAnswers]
    rfl

/-- Inode 1 is an empty file; blocks 0 to 4 are metadata. -/
def smallSuperblock : Superblock where
  size := 100
  nblocks := 95
  ninodes := 8
  nlog := 0
  logstart := 2
  inodestart := 2
  bmapstart := 4

def superblockWords : Nat → Nat
  | 0 => smallSuperblock.size
  | 1 => smallSuperblock.nblocks
  | 2 => smallSuperblock.ninodes
  | 3 => smallSuperblock.nlog
  | 4 => smallSuperblock.logstart
  | 5 => smallSuperblock.inodestart
  | _ => smallSuperblock.bmapstart

def emptyFile : Dinode := { Dinode.blank with type := tFile, nlink := 1 }

def smallDisk : Store Buffer
  | 1 => writeArray blankBlock 0 4 superblockWords 7
  | 2 => writeDinode blankBlock 1 emptyFile
  | 4 => fun index => if index = 0 then 0x1F else 0
  | _ => blankBlock

def smallSys : Sys where
  fs := { sb := smallSuperblock, disk := smallDisk }
  icache := fun _ => none

theorem small_current {inum : Nat} (inside : inum < 8) :
    current smallSys inum = if inum = 1 then emptyFile else Dinode.blank := by
  have block : iblock inum smallSuperblock = 2 := by
    unfold iblock
    rw [ipb_value, Nat.div_eq_of_lt inside]
    rfl
  have slot : dinodeoffset inum = inum := by
    unfold dinodeoffset
    rw [ipb_value, Nat.mod_eq_of_lt inside]
  have isCurrent : current smallSys inum =
      readDinode (smallDisk (iblock inum smallSuperblock)) (dinodeoffset inum) := rfl
  rw [isCurrent, block, slot]
  by_cases first : inum = 1
  · rw [if_pos first, first]
    exact read_write_dinode_same _ _ _
  · rw [if_neg first]
    exact (read_write_dinode_other _ _ _ _ first).trans (read_dinode_blank inum)

theorem small_file : IsFile smallSys 1 := by
  refine ⟨by decide, .inl ?_⟩
  rw [small_current (by decide)]
  rfl

theorem small_addrs (inum index : Nat) : (inodes smallSys inum).addr index = 0 := by
  by_cases allocated : Allocated smallSys inum
  · rw [inodes_allocated allocated, small_current allocated.1]
    split
    · exact Dinode.blank_addr index
    · exact Dinode.blank_addr index
  · unfold inodes
    rw [if_neg allocated]
    exact Dinode.blank_addr index

theorem small_consistent : Consistent smallSys := by
  have noRefs (inum : Nat) (place : Place) :
      refAt smallSys.fs.disk (inodes smallSys inum) place = 0 := by
    cases place with
    | addr index => exact small_addrs inum index
    | entry index =>
      simp only [refAt]
      rw [if_pos (.inl (small_addrs inum ndirect))]
  refine ⟨?_, ?_⟩
  · refine
      { layout := ⟨by decide, by decide, by decide, by decide⟩
        superblock := by decide
        reserved := by decide
        used := fun inum place present => absurd (noRefs inum place) present
        distinct := fun inum place _ _ present _ => absurd (noRefs inum place) present
        looseUsed := fun b none => absurd none List.not_mem_nil
        looseApart := fun b none => absurd none List.not_mem_nil
        looseOnce := List.nodup_nil }
  · intro inum file
    rw [small_current file.1]
    split
    · decide
    · decide

/-- Write, read, drop the copy in memory, read again and truncate. -/
theorem small_image_run : Consistent smallSys ∧
      Yields (run { read := fun _ => none, write := fun _ => none } smallSys
          [.writei 1 [10, 20, 30] 0, .readi 1 1 5, .evict 1, .readi 1 0 9, .itrunc 1])
        (fun result => Consistent result.2 ∧
          result.1 = (specRun (contentsOf smallSys)
            [.writei 1 [10, 20, 30] 0, .readi 1 1 5, .evict 1, .readi 1 0 9, .itrunc 1]).1 ∧
          contentsOf result.2 = (specRun (contentsOf smallSys)
            [.writei 1 [10, 20, 30] 0, .readi 1 1 5, .evict 1, .readi 1 0 9, .itrunc 1]).2)
        (fun stop => stop = .outOfBlocks) := by
  refine ⟨small_consistent, files_are_byte_arrays _ small_consistent _ ?_ ?_⟩
  · intro call member
    have inum : call.inum = 1 := by
      simp only [List.mem_cons, List.not_mem_nil, or_false] at member
      rcases member with rfl | rfl | rfl | rfl | rfl
      all_goals rfl
    rw [inum]
    exact small_file
  · intro inum member
    have isFirst : inum = 1 := by
      simpa using member
    subst isFirst
    refine ⟨?_, rfl⟩
    rw [small_current (by decide)]
    intro i none
    exact absurd none (Nat.not_lt_zero i)

/-- The bytes that the run reads, if the file is empty before. -/
example (contents : Contents) (empty : contents 1 = []) :
    (specRun contents [.writei 1 [10, 20, 30] 0, .readi 1 1 5]).1 =
      [{ value := 3, bytes := [] }, { value := 2, bytes := [20, 30] }] := by
  simp [specRun, specStep, empty, overwrite, maxfile, bsize, ndirect, nindirect, sizeofUint]

end Xv6Hacks.FileArrays
