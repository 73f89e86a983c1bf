import Xv6Hacks.FileCalls

/-!
# Directories

A directory as `dirlookup`, `dirlink` and `sys_unlink` see it: a file of 16-byte entries, of
which `readi` and `writei` read and write the bytes. The bytes stand for a map, `slot`, with
the name and the inode number of every live entry. Names count up to their NUL and no
further than `DIRSIZ` bytes, wherever the comparing and the copying stop.
-/

namespace Xv6Hacks.Directories

open Function BlockGroupLayout ByteBuffers DiskFormat
open FileCalls (dirsiz direntSize)

/-- A pointer is the memory behind it. -/
def strncmp (p q : Buffer) : Nat → Int
  | 0 => 0
  | n + 1 =>
    if p 0 ≠ 0#8 ∧ p 0 = q 0 then strncmp (p <| · + 1) (q <| · + 1) n
    else (p 0).toNat - (q 0).toNat

/-- The bytes that are stored. -/
def strncpy (t : Buffer) : Nat → List Byte
  | 0 => []
  | n + 1 => if t 0 = 0#8 then .replicate (n + 1) 0#8 else t 0 :: strncpy (t <| · + 1) n

def namecmp (s t : Buffer) : Int := strncmp s t dirsiz

structure Dir where
  type : BitVec 16
  size : Nat
  data : Buffer

inductive Panic
  | dirlookupNotDir
  | dirlinkRead
  | dirlink
  deriving DecidableEq

def direntAt (dir : Dir) (off : Nat) : Buffer := fun index => dir.data (off + index)

def inumOf (de : Buffer) : Nat := readLE de 0 2

def nameOf (de : Buffer) : Buffer := fun index => de (2 + index)

/-- `none` stands for -1. -/
def writei (dir : Dir) (off : Nat) (bytes : List Byte) : Option Dir :=
  if dir.size < off ∨ maxfile * bsize < off + bytes.length then none
  else some { dir with
    size := max dir.size (off + bytes.length), data := copyInto dir.data off bytes }

/-- The loop of `dirlookup` and of `dirlink`: the offset at which it is left. -/
def scan (dir : Dir) (stop : Buffer → Bool) : Nat → Nat → Except Panic Nat
  | 0, off => .ok off
  | rounds + 1, off =>
    -- `readi` returns fewer bytes at the end of the file
    if dir.size < off + direntSize then .error .dirlinkRead
    else if stop (direntAt dir off) then .ok off
    else scan dir stop rounds (off + direntSize)

def rounds (dir : Dir) : Nat := (dir.size + direntSize - 1) / direntSize

def matching (name de : Buffer) : Bool := inumOf de ≠ 0 ∧ namecmp name (nameOf de) = 0

/-- The inode number for `iget`, and `*poff`. -/
def dirlookup (dir : Dir) (name : Buffer) : Except Panic (Option (Nat × Nat)) :=
  if dir.type ≠ tDir then .error .dirlookupNotDir
  else do
    let off ← scan dir (matching name) (rounds dir) 0
    .ok (if off < dir.size then some (inumOf (direntAt dir off), off) else none)

def dirent (inum : Nat) (name : Buffer) : List Byte :=
  byteOf inum 0 :: byteOf inum 1 :: strncpy name dirsiz

def dirlink (dir : Dir) (name : Buffer) (inum : Nat) : Except Panic (Int × Dir) := do
  match ← dirlookup dir name with
  | some _ => .ok (-1, dir)
  | none =>
    let off ← scan dir (inumOf · = 0) (rounds dir) 0
    match writei dir off (dirent inum name) with
    | some dir => .ok (0, dir)
    | none => .error .dirlink

/-- `memset(&de, 0, sizeof(de))` and the call of `writei` in `sys_unlink`. -/
def clearEntry (dir : Dir) (off : Nat) : Option Dir :=
  writei dir off (.replicate direntSize 0#8)

/-- The first `n` bytes up to the NUL. -/
def key (t : Buffer) : Nat → List Byte
  | 0 => []
  | n + 1 => if t 0 = 0#8 then [] else t 0 :: key (t <| · + 1) n

theorem strncmp_eq_zero_iff (p q : Buffer) (n : Nat) : strncmp p q n = 0 ↔ key p n = key q n := by
  induction n generalizing p q with
  | zero => exact iff_of_true rfl rfl
  | succ n ih =>
    rw [strncmp, key, key]
    by_cases same : p 0 = q 0
    · by_cases ended : q 0 = 0#8
      · simp [same, ended]
      · simp [same, ended, ih]
    · have differ : ((p 0).toNat : Int) - (q 0).toNat ≠ 0 := by
        intro zero
        exact same (BitVec.eq_of_toNat_eq (by omega))
      rw [if_neg fun going => same going.2]
      refine iff_of_false differ ?_
      split <;> split <;> simp_all

theorem key_congr {p q : Buffer} {n : Nat} (same : ∀ index, index < n → p index = q index) :
    key p n = key q n := by
  induction n generalizing p q with
  | zero => rfl
  | succ n ih =>
    rw [key, key, same 0 (by omega), ih fun index bound => same (index + 1) (by omega)]

theorem key_strncpy (t : Buffer) (n : Nat) : key ((strncpy t n).getD · 0) n = key t n := by
  induction n generalizing t with
  | zero => rfl
  | succ n ih =>
    rw [strncpy, key, key]
    by_cases ended : t 0 = 0#8
    · simp [ended]
    · simpa [ended] using ih (t <| · + 1)

theorem strncpy_length (t : Buffer) (n : Nat) : (strncpy t n).length = n := by
  induction n generalizing t with
  | zero => rfl
  | succ n ih =>
    rw [strncpy]
    by_cases ended : t 0 = 0#8
    · simp [ended]
    · simp [ended, ih]

def entryOf (de : Buffer) : Option (List Byte × Nat) :=
  if inumOf de = 0 then none else some (key (nameOf de) dirsiz, inumOf de)

def slot (dir : Dir) (k : Nat) : Option (List Byte × Nat) :=
  if direntSize * k + direntSize ≤ dir.size then entryOf (direntAt dir (direntSize * k)) else none

structure Proper (dir : Dir) : Prop where
  typed : dir.type = tDir
  whole : direntSize ∣ dir.size
  sized : dir.size ≤ maxfile * bsize
  unique : ∀ j k name left right,
    slot dir j = some (name, left) → slot dir k = some (name, right) → j = k

def Finds (dir : Dir) (name : Buffer) : Option (Nat × Nat) → Prop
  | none => ∀ k inum, slot dir k ≠ some (key name dirsiz, inum)
  | some (inum, off) => ∃ k, off = direntSize * k ∧ slot dir k = some (key name dirsiz, inum)

theorem entry_of_eq_some_iff (name de : Buffer) (inum : Nat) :
    entryOf de = some (key name dirsiz, inum) ↔ matching name de ∧ inumOf de = inum := by
  rw [entryOf, matching, namecmp, decide_eq_true_iff, strncmp_eq_zero_iff]
  by_cases free : inumOf de = 0
  · simp [free]
  · simp [free, eq_comm (b := key name dirsiz)]

theorem entry_of_congr {de other : Buffer} (same : ∀ index, index < direntSize → de index = other index) :
    entryOf de = entryOf other := by
  have inum : inumOf de = inumOf other :=
    read_le_congr _ _ _ _ fun index _ bound => same index (Nat.lt_trans bound (by decide))
  have name : key (nameOf de) dirsiz = key (nameOf other) dirsiz :=
    key_congr fun index bound => same (2 + index) (by simp only [dirsiz, direntSize] at bound ⊢; omega)
  rw [entryOf, entryOf, inum, name]

variable {dir : Dir}

theorem slot_of_lt {n k : Nat} (whole : dir.size = direntSize * n) (inside : k < n) :
    slot dir k = entryOf (direntAt dir (direntSize * k)) :=
  if_pos (by simp only [whole, direntSize]; omega)

theorem slot_of_ge {n k : Nat} (whole : dir.size = direntSize * n) (outside : n ≤ k) :
    slot dir k = none :=
  if_neg (by simp only [whole, direntSize]; omega)

theorem scan_spec (stop : Buffer → Bool) {n : Nat} (whole : dir.size = direntSize * n) (left k : Nat)
    (ends : k + left = n) :
    ∃ found, scan dir stop left (direntSize * k) = .ok (direntSize * found) ∧ found ≤ n ∧
    (found < n → stop (direntAt dir (direntSize * found))) ∧
    ∀ j, k ≤ j → j < found → ¬ stop (direntAt dir (direntSize * j)) := by
  induction left generalizing k with
  | zero => exact ⟨k, rfl, by omega, by omega, by omega⟩
  | succ left ih =>
    rw [scan, if_neg (by simp only [whole, direntSize]; omega)]
    by_cases here : stop (direntAt dir (direntSize * k))
    · rw [if_pos here]
      exact ⟨k, rfl, by omega, fun _ => here, by omega⟩
    · rw [if_neg here]
      obtain ⟨found, result, bound, stops, passed⟩ := ih (k + 1) (by omega)
      refine ⟨found, result, bound, stops, fun j lower upper => ?_⟩
      by_cases first : j = k
      · exact first ▸ here
      · exact passed j (by omega) upper

theorem scan_all (stop : Buffer → Bool) {n : Nat} (whole : dir.size = direntSize * n) :
    ∃ k, scan dir stop (rounds dir) 0 = .ok (direntSize * k) ∧ k ≤ n ∧
    (k < n → stop (direntAt dir (direntSize * k))) ∧
    ∀ j, j < k → ¬ stop (direntAt dir (direntSize * j)) := by
  have all : rounds dir = n := by
    simp only [rounds, whole, direntSize]
    omega
  obtain ⟨k, result, bound, stops, passed⟩ := scan_spec stop whole n 0 (by omega)
  exact ⟨k, all ▸ result, bound, stops, fun j => passed j j.zero_le⟩

theorem scan_free {n : Nat} (whole : dir.size = direntSize * n) :
    ∃ k, scan dir (inumOf · = 0) (rounds dir) 0 = .ok (direntSize * k) ∧
    k ≤ n ∧ slot dir k = none ∧ (k = n → ∀ j, j < n → slot dir j ≠ none) := by
  obtain ⟨k, result, bound, stops, passed⟩ := scan_all (inumOf · = 0) whole
  refine ⟨k, result, bound, ?_, fun last j lower => ?_⟩
  · by_cases inside : k < n
    · rw [slot_of_lt whole inside, entryOf, if_pos (by simpa using stops inside)]
    · exact slot_of_ge whole (by omega)
  · rw [slot_of_lt whole lower, entryOf, if_neg (by simpa using passed j (by omega))]
    exact Option.some_ne_none _

section
variable (proper : Proper dir)
include proper

theorem Proper.dirlookup_finds (name : Buffer) :
    ∃ found, dirlookup dir name = .ok found ∧ Finds dir name found := by
  obtain ⟨n, whole⟩ := proper.whole
  obtain ⟨k, result, bound, stops, passed⟩ := scan_all (matching name) whole
  refine ⟨if direntSize * k < dir.size then
    some (inumOf (direntAt dir (direntSize * k)), direntSize * k) else none, ?_, ?_⟩
  · rw [dirlookup, if_neg (not_not.mpr proper.typed), result]
    rfl
  · by_cases inside : k < n
    · rw [if_pos (by simp only [whole, direntSize]; omega)]
      refine ⟨k, rfl, ?_⟩
      rw [slot_of_lt whole inside, entry_of_eq_some_iff]
      exact ⟨stops inside, rfl⟩
    · rw [if_neg (by simp only [whole, direntSize]; omega)]
      intro j inum here
      by_cases lower : j < n
      · rw [slot_of_lt whole lower, entry_of_eq_some_iff] at here
        exact passed j (by omega) here.1
      · rw [slot_of_ge whole (by omega)] at here
        cases here

theorem Proper.finds_unique {name : Buffer} {left right : Option (Nat × Nat)}
    (one : Finds dir name left) (two : Finds dir name right) : left = right := by
  cases left with
  | none =>
    cases right with
    | none => rfl
    | some found => obtain ⟨k, -, here⟩ := two; exact absurd here (one k _)
  | some found =>
    obtain ⟨j, place, here⟩ := one
    cases right with
    | none => exact absurd here (two j _)
    | some other =>
      obtain ⟨k, place', there⟩ := two
      cases proper.unique j k _ _ _ here there
      rw [here] at there
      exact congrArg some (Prod.ext (by simpa using there) (place.trans place'.symm))

theorem Proper.dirlookup_iff (name : Buffer) (found : Option (Nat × Nat)) :
    dirlookup dir name = .ok found ↔ Finds dir name found := by
  obtain ⟨first, looked, fits⟩ := proper.dirlookup_finds name
  rw [looked]
  constructor
  · intro same
    cases same
    exact fits
  · intro other
    rw [proper.finds_unique fits other]

end

structure Replaced (dir after : Dir) (k : Nat) (entry : Option (List Byte × Nat)) : Prop where
  typed : after.type = dir.type
  room : direntSize * k + direntSize ≤ maxfile * bsize
  size : after.size = max dir.size (direntSize * k + direntSize)
  slots : slot after = update (slot dir) k entry

theorem write_entry {k : Nat} (within : direntSize * k ≤ dir.size)
    (room : direntSize * k + direntSize ≤ maxfile * bsize) {bytes : List Byte}
    (width : bytes.length = direntSize) : ∃ after, writei dir (direntSize * k) bytes = some after ∧
    Replaced dir after k (entryOf (bytes.getD · 0)) := by
  let after : Dir := { dir with
    size := max dir.size (direntSize * k + direntSize)
    data := copyInto dir.data (direntSize * k) bytes }
  refine ⟨after, by rw [writei, width, if_neg (by omega)], rfl, room, rfl, funext fun j => ?_⟩
  by_cases here : j = k
  · rw [here, update_self, slot, if_pos (Nat.le_max_right _ _)]
    refine entry_of_congr fun index bound => ?_
    change copyInto _ _ _ _ = _
    rw [copyInto, if_pos (by omega), Nat.add_sub_cancel_left]
  · have same : ∀ index, index < direntSize →
        direntAt after (direntSize * j) index = direntAt dir (direntSize * j) index := by
      intro index bound
      change copyInto _ _ _ _ = dir.data _
      simp only [copyInto, width, direntSize] at bound ⊢
      rw [if_neg (by omega)]
    have bound : direntSize * j + direntSize ≤ after.size ↔
        direntSize * j + direntSize ≤ dir.size := by
      simp only [after, direntSize] at within ⊢
      omega
    rw [update_of_ne here, slot, slot, entry_of_congr same]
    simp only [bound]

namespace Replaced

variable {after : Dir} {k : Nat} {entry : Option (List Byte × Nat)}
  (replaced : Replaced dir after k entry)
include replaced

theorem finds_other {name : Buffer} (old : ∀ inum, slot dir k ≠ some (key name dirsiz, inum))
    (new : ∀ inum, entry ≠ some (key name dirsiz, inum)) (found : Option (Nat × Nat)) :
    Finds after name found ↔ Finds dir name found := by
  have same : ∀ j inum, slot after j = some (key name dirsiz, inum) ↔
      slot dir j = some (key name dirsiz, inum) := by
    intro j inum
    rw [replaced.slots]
    by_cases here : j = k
    · rw [here, update_self]
      exact iff_of_false (new inum) (old inum)
    · rw [update_of_ne here]
  cases found with
  | none => simp only [Finds, ne_eq, same]
  | some found => simp only [Finds, same]

theorem dirlookup_other (before : Proper dir) (later : Proper after) {name : Buffer}
    (old : ∀ inum, slot dir k ≠ some (key name dirsiz, inum))
    (new : ∀ inum, entry ≠ some (key name dirsiz, inum)) :
    dirlookup after name = dirlookup dir name := by
  obtain ⟨found, looked, finds⟩ := before.dirlookup_finds name
  rw [looked, later.dirlookup_iff, replaced.finds_other old new]
  exact finds

theorem proper (before : Proper dir)
    (new : ∀ name inum, entry = some (name, inum) → ∀ j other, slot dir j ≠ some (name, other)) :
    Proper after where
  typed := replaced.typed.trans before.typed
  whole := by
    rcases max_choice dir.size (direntSize * k + direntSize) with larger | larger
    · rw [replaced.size, larger]
      exact before.whole
    · rw [replaced.size, larger]
      exact ⟨k + 1, rfl⟩
  sized := by
    rw [replaced.size]
    exact max_le before.sized replaced.room
  unique := by
    intro i j name left right one two
    rw [replaced.slots] at one two
    by_cases first : i = k
    · by_cases second : j = k
      · exact first.trans second.symm
      · rw [first, update_self] at one
        rw [update_of_ne second] at two
        exact absurd two (new name left one j right)
    · rw [update_of_ne first] at one
      by_cases second : j = k
      · rw [second, update_self] at two
        exact absurd one (new name right two i left)
      · rw [update_of_ne second] at two
        exact before.unique i j name left right one two

end Replaced

theorem entry_of_dirent (name : Buffer) {inum : Nat} (positive : 0 < inum) (small : inum < 65536) :
    entryOf ((dirent inum name).getD · 0) = some (key name dirsiz, inum) := by
  have stored : inumOf ((dirent inum name).getD · 0) = inum := by
    rw [inumOf, read_le_of_bytes _ 0 2 inum]
    · exact Nat.mod_eq_of_lt small
    · intro index bound
      interval_cases index <;> rfl
  have named : nameOf ((dirent inum name).getD · 0) = ((strncpy name dirsiz).getD · 0) := by
    funext index
    rw [nameOf, dirent, Nat.add_comm]
    rfl
  rw [entryOf, if_neg (by omega), stored, named, key_strncpy]

theorem entry_of_clear : entryOf ((List.replicate direntSize 0#8).getD · 0) = none := by decide

/-- A directory is a map from names to inode numbers: a name that is not there can be
entered, one that is there cannot be entered again but removed, and both leave the other
names alone. -/
theorem directory_is_map (proper : Proper dir) (name : Buffer) (inum : Nat) (positive : 0 < inum)
    (small : inum < 65536) : (dirlookup dir name = .ok none → dir.size < maxfile * bsize →
      ∃ after k, dirlink dir name inum = .ok (0, after) ∧ Proper after ∧
        slot after k = some (key name dirsiz, inum) ∧
        dirlookup after name = .ok (some (inum, direntSize * k)) ∧
        (∀ other, key other dirsiz ≠ key name dirsiz → dirlookup after other = dirlookup dir other) ∧
        (after.size = dir.size ∨ after.size = dir.size + direntSize ∧
          ∀ j, direntSize * j < dir.size → slot dir j ≠ none)) ∧
    ∀ found off, dirlookup dir name = .ok (some (found, off)) →
      dirlink dir name inum = .ok (-1, dir) ∧
      ∃ after, clearEntry dir off = some after ∧ Proper after ∧ after.size = dir.size ∧
        dirlookup after name = .ok none ∧ ∀ other, key other dirsiz ≠ key name dirsiz →
          dirlookup after other = dirlookup dir other := by
  obtain ⟨n, whole⟩ := proper.whole
  constructor
  · intro absent below
    have unknown := (proper.dirlookup_iff name none).mp absent
    obtain ⟨k, place, bound, free, full⟩ := scan_free whole
    have room : direntSize * k + direntSize ≤ maxfile * bsize := by
      have most : maxfile * bsize = 71680 := rfl
      simp only [whole, most, direntSize] at below ⊢
      omega
    obtain ⟨after, written, replaced⟩ := write_entry (whole ▸ Nat.mul_le_mul_left _ bound) room
      (congrArg (· + 2) (strncpy_length name dirsiz) : (dirent inum name).length = _)
    rw [entry_of_dirent name positive small] at replaced
    have later := replaced.proper proper fun other found same j => by
      rw [← (Prod.mk.inj (Option.some.inj same)).1]
      exact unknown j
    have linked : slot after k = some (key name dirsiz, inum) := by rw [replaced.slots, update_self]
    refine ⟨after, k, ?_, later, linked, (later.dirlookup_iff name _).mpr ⟨k, rfl, linked⟩,
      fun other differ => ?_, ?_⟩
    · rw [dirlink, absent]
      change (scan _ _ _ _ >>= _) = _
      rw [place]
      change (match writei _ _ _ with | some _ => _ | none => _) = _
      rw [written]
    · refine replaced.dirlookup_other proper later (by simp [free]) fun found same => differ ?_
      exact (Prod.mk.inj (Option.some.inj same)).1.symm
    · rw [replaced.size]
      by_cases last : k = n
      · refine .inr ⟨by simp only [whole, last, direntSize]; omega, fun j lower => full last j ?_⟩
        simp only [whole, direntSize] at lower
        omega
      · exact .inl (by simp only [whole, direntSize]; omega)
  · intro found off present
    obtain ⟨k, rfl, here⟩ := (proper.dirlookup_iff name _).mp present
    have inside : direntSize * k + direntSize ≤ dir.size := by
      by_contra outside
      rw [slot, if_neg outside] at here
      cases here
    have within : direntSize * k ≤ dir.size := by omega
    obtain ⟨after, written, replaced⟩ := write_entry within (inside.trans proper.sized)
      (List.length_replicate : (List.replicate direntSize 0#8).length = _)
    rw [entry_of_clear] at replaced
    have later := replaced.proper proper (by simp)
    refine ⟨by rw [dirlink, present]; rfl, after, written, later,
      replaced.size.trans (max_eq_left inside), ?_, fun other differ => ?_⟩
    · refine (later.dirlookup_iff name none).mpr fun j inum there => ?_
      rw [replaced.slots] at there
      by_cases same : j = k
      · rw [same, update_self] at there
        cases there
      · rw [update_of_ne same] at there
        exact same (proper.unique j k _ _ _ there here)
    · refine replaced.dirlookup_other proper later (fun inum there => differ ?_) (by simp)
      rw [here] at there
      exact (Prod.mk.inj (Option.some.inj there)).1.symm

def dotDir : Dir := ⟨tDir, 16, fun index => if index = 0 then 1 else if index = 2 then 0x2e else 0⟩

theorem dot_dir_proper : Proper dotDir where
  typed := rfl
  whole := ⟨1, rfl⟩
  sized := by decide
  unique := by
    have first : ∀ k entry, slot dotDir k = some entry → k = 0 := by
      intro k entry here
      by_contra later
      rw [slot_of_ge (n := 1) rfl (by omega)] at here
      cases here
    intro j k name left right one two
    rw [first j _ one, first k _ two]

theorem dot_dir_grows : ∃ after k, dirlink dotDir (fun index => if index < 20 then 0x61 else 0) 2 =
    .ok (0, after) ∧ slot after k = some (List.replicate 14 0x61, 2) := by
  obtain ⟨after, k, linked, -, here, -⟩ :=
    (directory_is_map dot_dir_proper (fun index => if index < 20 then 0x61 else 0) 2
      (by decide) (by decide)).1 rfl (by decide)
  exact ⟨after, k, linked, here⟩

end Xv6Hacks.Directories
