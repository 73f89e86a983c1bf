import Xv6Hacks.BlockGroupLayout
import Xv6Hacks.Kalloc

/-!
# Where `read` writes

`sys_read` with everything behind it that touches the caller's memory: `argfd`,
`argptr`, `fileread`, `readi`, `piperead` and `consoleread`. The result of a call is the
list of its stores to user addresses, in order, with its return value. Waiting is left
out: a pipe is given as it is when `piperead` stops waiting, and the console by the
characters it delivers until the call ends. The new offset of the file is left out too.

`argptr` checks `n` as a signed number that may be negative, and `readi` takes the same
bits as an unsigned one.
-/

namespace Xv6Hacks.ReadBounds

open BlockGroupLayout ByteBuffers Kalloc

abbrev Word := BitVec 32

def nofile : Nat := 16

def ndev : Nat := 10

def pipesize : Nat := 512

/-- The major number of the only device with a `read` function. -/
def console : Int := 1

inductive FileType where
  | dir
  | file
  | dev
  deriving DecidableEq, Repr

structure Inode where
  type : FileType
  major : Int
  size : Word
  content : Nat → Byte

structure Pipe where
  data : Nat → Byte
  nread : Word
  nwrite : Word

inductive Kind where
  | none
  | pipe (pipe : Pipe)
  | inode (ip : Inode) (off : Word)

structure File where
  kind : Kind
  readable : Bool

/-- `allocuvm` refuses sizes from `KERNBASE` on. -/
structure Proc where
  sz : Word
  killed : Bool
  ofile : Nat → Option File
  below : sz.toNat < kernbase

inductive Panic where
  | fileread
  | bmapOutOfRange
  deriving DecidableEq, Repr

abbrev Stores := List (Nat × Byte)

structure Reading where
  stores : Stores
  result : Except Panic Int

def failed : Reading := ⟨[], .ok (-1)⟩

def argfd (proc : Proc) (fd : Int) : Option File :=
  if fd < 0 ∨ nofile ≤ fd then none else proc.ofile fd.toNat

def argptr (sz buf size : Word) : Bool := !(sz ≤ buf || sz < buf + size)

def copyBytes (dst m : Nat) (byte : Nat → Byte) : Stores :=
  (List.range m).map fun i => ((dst + i) % 2 ^ 32, byte i)

/-- The loop of `readi`, with `left = n - tot`; `false` if `bmap` panics. -/
def readLoop (content : Nat → Byte) (dst off left : Nat) : Stores × Bool :=
  if left = 0 then ([], true)
  else if maxfile ≤ off / bsize then ([], false)
  else
    let m := min left (bsize - off % bsize)
    let rest := readLoop content (dst + m) ((off + m) % 2 ^ 32) (left - m)
    (copyBytes dst m (fun i => content (off + i)) ++ rest.1, rest.2)
termination_by left
decreasing_by
  have room : 0 < bsize - off % bsize := by
    simp only [bsize]
    omega
  omega

/-- The loop of `piperead` over the bytes still wanted. -/
def pipeLoop (pipe : Pipe) : Nat → Nat → Word → Stores
  | 0, _, _ => []
  | left + 1, dst, nread =>
    if nread = pipe.nwrite then []
    else (dst % 2 ^ 32, pipe.data (nread.toNat % pipesize)) :: pipeLoop pipe left (dst + 1) (nread + 1)

/-- The loop of `consoleread`; 4 is control-D and 10 a newline. -/
def consoleLoop : Nat → Nat → List Byte → Stores
  | 0, _, _ => []
  | _ + 1, _, [] => []
  | left + 1, dst, c :: input =>
    if c = 4 then []
    else if c = 10 then [(dst % 2 ^ 32, c)]
    else (dst % 2 ^ 32, c) :: consoleLoop left (dst + 1) input

def piperead (proc : Proc) (pipe : Pipe) (addr n : Word) : Reading :=
  if pipe.nread = pipe.nwrite ∧ proc.killed then failed
  else
    let stores := pipeLoop pipe n.toInt.toNat addr.toNat pipe.nread
    ⟨stores, .ok stores.length⟩

def consoleread (input : List Byte) (dst n : Word) : Reading :=
  let stores := consoleLoop n.toInt.toNat dst.toNat input
  ⟨stores, .ok stores.length⟩

def readi (input : List Byte) (ip : Inode) (dst off n : Word) : Reading :=
  if ip.type = .dev then
    if ip.major < 0 ∨ ndev ≤ ip.major ∨ ip.major ≠ console then failed
    else consoleread input dst n
  else if ip.size < off ∨ off + n < off then failed
  else
    let count := if ip.size < off + n then ip.size - off else n
    let copied := readLoop ip.content dst.toNat off.toNat count.toNat
    ⟨copied.1, if copied.2 then .ok count.toInt else .error .bmapOutOfRange⟩

def fileread (proc : Proc) (input : List Byte) (f : File) (addr n : Word) : Reading :=
  if f.readable = false then failed
  else
    match f.kind with
    | .pipe pipe => piperead proc pipe addr n
    | .inode ip off => readi input ip addr off n
    | .none => ⟨[], .error .fileread⟩

def sysRead (proc : Proc) (input : List Byte) (fd : Int) (buf n : Word) : Reading :=
  match argfd proc fd with
  | none => failed
  | some f => if argptr proc.sz buf n then fileread proc input f buf n else failed

/-- The stores go to `dst`, `dst + 1` and so on, fewer than `count` of them. -/
def Consecutive (dst count : Nat) (stores : Stores) : Prop :=
  ∀ store ∈ stores, ∃ i, i < count ∧ store.1 = (dst + i) % 2 ^ 32

theorem copy_bytes_consecutive (dst m : Nat) (byte : Nat → Byte) :
    Consecutive dst m (copyBytes dst m byte) := by
  intro store member
  simp only [copyBytes, List.mem_map, List.mem_range] at member
  obtain ⟨i, inside, rfl⟩ := member
  exact ⟨i, inside, rfl⟩

theorem consecutive_later {dst skip count : Nat} {stores : Stores}
    (later : Consecutive (dst + skip) count stores) : Consecutive dst (skip + count) stores := by
  intro store member
  obtain ⟨i, inside, at'⟩ := later store member
  exact ⟨skip + i, by omega, by rw [at', Nat.add_assoc]⟩

theorem consecutive_more {dst few many : Nat} {stores : Stores} (le : few ≤ many)
    (consecutive : Consecutive dst few stores) : Consecutive dst many stores := by
  intro store member
  obtain ⟨i, inside, at'⟩ := consecutive store member
  exact ⟨i, by omega, at'⟩

theorem read_loop_consecutive (content : Nat → Byte) (dst off left : Nat) :
    Consecutive dst left (readLoop content dst off left).1 := by
  -- The induction follows the rounds of the loop, one block each.
  induction left using Nat.strong_induction_on generalizing dst off with
  | _ left ih =>
    rw [readLoop]
    split
    · simp [Consecutive]
    · rename_i more
      split
      · simp [Consecutive]
      · have room : 0 < bsize - off % bsize := by
          simp only [bsize]
          omega
        intro store member
        rcases List.mem_append.mp member with now | later
        · exact consecutive_more (Nat.min_le_left _ _) (copy_bytes_consecutive _ _ _) store now
        · have rest := ih (left - min left (bsize - off % bsize)) (by omega)
            (dst + min left (bsize - off % bsize)) ((off + min left (bsize - off % bsize)) % 2 ^ 32)
          exact consecutive_more (by omega) (consecutive_later rest) store later

theorem pipe_loop_consecutive (pipe : Pipe) (left dst : Nat) (nread : Word) :
    Consecutive dst left (pipeLoop pipe left dst nread) := by
  induction left generalizing dst nread with
  | zero => simp [pipeLoop, Consecutive]
  | succ left ih =>
    rw [pipeLoop]
    split
    · simp [Consecutive]
    · intro store member
      rcases List.mem_cons.mp member with rfl | later
      · exact ⟨0, by omega, rfl⟩
      · exact consecutive_more (by omega) (consecutive_later (ih (dst + 1) (nread + 1))) store later

theorem console_loop_consecutive (left dst : Nat) (input : List Byte) :
    Consecutive dst left (consoleLoop left dst input) := by
  induction left generalizing dst input with
  | zero => simp [consoleLoop, Consecutive]
  | succ left ih =>
    cases input with
    | nil => simp [consoleLoop, Consecutive]
    | cons c input =>
      rw [consoleLoop]
      split
      · simp [Consecutive]
      · intro store member
        split at member
        · rw [List.mem_singleton.mp member]
          exact ⟨0, by omega, rfl⟩
        · rcases List.mem_cons.mp member with rfl | later
          · exact ⟨0, by omega, rfl⟩
          · exact consecutive_more (by omega) (consecutive_later (ih (dst + 1) input)) store later

/-- Every store lies in `[buf, buf + n)` and below the size of the process. -/
def Confined (sz buf n : Word) (stores : Stores) : Prop :=
  ∀ store ∈ stores, buf.toNat ≤ store.1 ∧ (store.1 : Int) < buf.toNat + n.toInt ∧
    store.1 < sz.toNat

theorem confined_nil (sz buf n : Word) : Confined sz buf n [] := by simp [Confined]

theorem argptr_bounds {sz buf n : Word} (below : sz.toNat < kernbase)
    (passes : argptr sz buf n = true) (positive : 0 ≤ n.toInt) :
    buf.toNat + n.toInt.toNat ≤ sz.toNat := by
  simp only [argptr, Bool.not_eq_true', Bool.or_eq_false_iff, decide_eq_false_iff_not] at passes
  obtain ⟨low, high⟩ := passes
  have size : n.toInt = n.toNat := by
    rw [BitVec.toInt_eq_toNat_cond] at positive ⊢
    have bound := n.isLt
    split
    · rfl
    · rename_i large
      rw [if_neg large] at positive
      omega
  have small : n.toNat < 2 ^ 31 := by
    have bound := BitVec.toInt_lt (x := n)
    rw [size] at bound
    simpa using bound
  rw [BitVec.not_le, BitVec.lt_def] at low
  rw [BitVec.not_lt, BitVec.le_def, BitVec.toNat_add] at high
  rw [size]
  simp only [kernbase] at below
  omega

theorem Consecutive.confined {sz buf n : Word} {stores : Stores} (below : sz.toNat < kernbase)
    (passes : argptr sz buf n = true)
    (consecutive : Consecutive buf.toNat n.toInt.toNat stores) : Confined sz buf n stores := by
  intro store member
  obtain ⟨i, inside, at'⟩ := consecutive store member
  have positive : 0 ≤ n.toInt := by omega
  have fits := argptr_bounds below passes positive
  simp only [kernbase] at below
  rw [at', Nat.mod_eq_of_lt (by omega)]
  omega

theorem to_int_of_nonneg {n : Word} (positive : 0 ≤ n.toInt) : n.toInt.toNat = n.toNat := by
  rw [BitVec.toInt_eq_toNat_cond] at positive ⊢
  split
  · omega
  · rename_i large
    rw [if_neg large] at positive
    omega

theorem to_nat_of_neg {n : Word} (negative : n.toInt < 0) : (n.toNat : Int) = n.toInt + 2 ^ 32 := by
  rw [BitVec.toInt_eq_toNat_cond] at negative ⊢
  split
  · rename_i small
    rw [if_pos small] at negative
    omega
  · push_cast
    omega

theorem readi_consecutive (input : List Byte) (ip : Inode) (dst off n : Word)
    (positive : 0 ≤ n.toInt) :
    Consecutive dst.toNat n.toInt.toNat (readi input ip dst off n).stores := by
  rw [readi]
  split
  · split
    · simp [failed, Consecutive]
    · exact console_loop_consecutive _ _ _
  · split
    · simp [failed, Consecutive]
    · rename_i fits
      rw [not_or, BitVec.not_lt, BitVec.not_lt, BitVec.le_def, BitVec.le_def] at fits
      refine consecutive_more ?_ (read_loop_consecutive _ _ _ _)
      rw [to_int_of_nonneg positive]
      split
      · rename_i clipped
        rw [BitVec.lt_def, BitVec.toNat_add] at clipped
        rw [BitVec.toNat_sub]
        omega
      · exact le_rfl

theorem read_loop_first (content : Nat → Byte) (dst off left : Nat) (some : 0 < left)
    (inFile : off / bsize < maxfile) :
    (dst % 2 ^ 32, content off) ∈ (readLoop content dst off left).1 := by
  have room : 0 < bsize - off % bsize := by
    simp only [bsize]
    omega
  rw [readLoop, if_neg (by omega), if_neg (by omega)]
  apply List.mem_append_left
  simp only [copyBytes, List.mem_map, List.mem_range]
  exact ⟨0, by omega, rfl⟩

theorem read_loop_beyond (content : Nat → Byte) (dst off left : Nat)
    (beyond : maxfile ≤ off / bsize) : (readLoop content dst off left).1 = [] := by
  rw [readLoop, if_pos beyond]
  split
  · rfl
  · rfl

/-- A negative count goes through: the offset is inside the file, and adding the count to
it does not wrap. -/
def ReadsNegative (ip : Inode) (off n : Word) : Prop :=
  ip.type ≠ .dev ∧ off.toNat < ip.size.toNat ∧ (off.toNat : Int) < - n.toInt ∧
    off.toNat / bsize < maxfile

section Negative
variable {input : List Byte} {ip : Inode} {dst off n : Word} (negative : n.toInt < 0)
include negative

theorem readi_negative_stores (reads : ReadsNegative ip off n) :
    (dst.toNat % 2 ^ 32, ip.content off.toNat) ∈ (readi input ip dst off n).stores := by
  obtain ⟨plain, inside, noWrap, inFile⟩ := reads
  have unsigned := to_nat_of_neg negative
  have sum : (off + n).toNat = off.toNat + n.toNat := by
    rw [BitVec.toNat_add]
    omega
  rw [readi, if_neg plain, if_neg]
  · apply read_loop_first _ _ _ _ _ inFile
    split
    · rw [BitVec.toNat_sub]
      omega
    · have lower := BitVec.le_toInt n
      omega
  · rw [not_or, BitVec.not_lt, BitVec.not_lt, BitVec.le_def, BitVec.le_def, sum]
    omega

theorem readi_negative_nothing (plain : ip.type ≠ .dev) (reads : ¬ ReadsNegative ip off n) :
    (readi input ip dst off n).stores = [] := by
  rw [readi, if_neg plain]
  split
  · rfl
  · rename_i fits
    rw [not_or, BitVec.not_lt, BitVec.not_lt, BitVec.le_def, BitVec.le_def, BitVec.toNat_add] at fits
    have unsigned := to_nat_of_neg negative
    have lower := BitVec.le_toInt n
    have offset := off.isLt
    by_cases inFile : off.toNat / bsize < maxfile
    · -- The sum does not wrap, so only an offset at the end of the file is left.
      have atEnd : ip.size.toNat = off.toNat := by
        by_contra before
        exact reads ⟨plain, by omega, by omega, inFile⟩
      have clipped : ip.size < off + n := by
        rw [BitVec.lt_def, BitVec.toNat_add]
        omega
      have same : ip.size = off := BitVec.eq_of_toNat_eq atEnd
      rw [if_pos clipped, same, BitVec.sub_self]
      simp [readLoop]
    · exact read_loop_beyond _ _ _ _ (by omega)

end Negative

/-- A call that escapes: the count is negative and passes the checks, and an inode is read. -/
def Escapes (proc : Proc) (fd : Int) (buf n : Word) : Prop :=
  argptr proc.sz buf n = true ∧ n.toInt < 0 ∧
    ∃ f ip off, argfd proc fd = some f ∧ f.readable = true ∧ f.kind = .inode ip off ∧
      ReadsNegative ip off n

theorem not_escapes {proc : Proc} {fd : Int} {buf n : Word} {f : File}
    (found : argfd proc fd = some f)
    (other : ∀ ip off, f.readable = true → f.kind = .inode ip off → n.toInt < 0 →
    ¬ ReadsNegative ip off n) : ¬ Escapes proc fd buf n := by
  rintro ⟨-, negative, g, ip, off, same, readable, kind, reads⟩
  rw [found] at same
  cases same
  exact other ip off readable kind negative reads

/-- Reading stays inside the caller's memory exactly when no negative count reads an inode. -/
theorem read_confined_iff (proc : Proc) (input : List Byte) (fd : Int) (buf n : Word) :
    Confined proc.sz buf n (sysRead proc input fd buf n).stores ↔ ¬ Escapes proc fd buf n := by
  rw [sysRead]
  cases found : argfd proc fd with
  | none =>
    refine ⟨fun _ escapes => ?_, fun _ => confined_nil _ _ _⟩
    obtain ⟨-, -, f, ip, off, same, -⟩ := escapes
    rw [found] at same
    contradiction
  | some f =>
    simp only
    split
    · rename_i passes
      have confined {stores : Stores}
          (consecutive : Consecutive buf.toNat n.toInt.toNat stores) :
          Confined proc.sz buf n stores := consecutive.confined proc.below passes
      rw [fileread]
      split
      · rename_i closed
        refine ⟨fun _ => not_escapes found ?_, fun _ => confined_nil _ _ _⟩
        intro ip off readable
        rw [closed] at readable
        contradiction
      · rename_i readable
        have readable : f.readable = true := by simpa using readable
        cases kind : f.kind with
        | none =>
          refine ⟨fun _ => not_escapes found ?_, fun _ => confined_nil _ _ _⟩
          intro ip off _ same
          rw [kind] at same
          contradiction
        | pipe pipe =>
          refine ⟨fun _ => not_escapes found ?_, fun _ => ?_⟩
          · intro ip off _ same
            rw [kind] at same
            contradiction
          · simp only [piperead]
            split
            · exact confined_nil _ _ _
            · exact confined (pipe_loop_consecutive _ _ _ _)
        | inode ip off =>
          simp only
          by_cases negative : n.toInt < 0
          · by_cases device : ip.type = .dev
            · refine ⟨fun _ => not_escapes found ?_, fun _ => ?_⟩
              · intro other off' _ same _ reads
                rw [kind] at same
                cases same
                exact reads.1 device
              · rw [readi, if_pos device]
                split
                · exact confined_nil _ _ _
                · exact confined (console_loop_consecutive _ _ _)
            · constructor
              · rintro inside ⟨-, -, g, other, off', sameFile, -, same, reads⟩
                rw [found] at sameFile
                cases sameFile
                rw [kind] at same
                cases same
                have store := inside _ (readi_negative_stores negative reads)
                have bound := buf.isLt
                simp only [Nat.mod_eq_of_lt bound] at store
                omega
              · intro stays
                have reads : ¬ ReadsNegative ip off n := by
                  intro reads
                  exact stays ⟨passes, negative, f, ip, off, found, readable, kind, reads⟩
                rw [readi_negative_nothing negative device reads]
                exact confined_nil _ _ _
          · refine ⟨fun _ => not_escapes found ?_, fun _ => ?_⟩
            · intro _ _ _ _ below
              exact absurd below negative
            · exact confined (readi_consecutive input ip buf off n (by omega))
    · rename_i refused
      refine ⟨fun _ escapes => refused escapes.1, fun _ => confined_nil _ _ _⟩

/-- A process of four pages with a file of 20000 bytes open for reading. -/
def reader : Proc where
  sz := 0x4000
  killed := false
  ofile := fun _ => some ⟨.inode ⟨.file, 0, 20000, fun _ => 0x61⟩ 0, true⟩
  below := by decide

/-- `read(3, 0x1000, -1)` overwrites memory from 0x1000 to the end of the process and beyond. -/
theorem negative_read_escapes : ¬ ∀ (proc : Proc) (input : List Byte) (fd : Int) (buf n : Word),
      Confined proc.sz buf n (sysRead proc input fd buf n).stores := by
  intro always
  have reads : ReadsNegative ⟨.file, 0, 20000, fun _ => 0x61⟩ 0 (-1) := by
    refine ⟨by decide, by decide, by decide, by decide⟩
  have reaches : sysRead reader [] 3 0x1000 (-1) =
      readi [] ⟨.file, 0, 20000, fun _ => 0x61⟩ 0x1000 0 (-1) := rfl
  have inside := always reader [] 3 0x1000 (-1)
  rw [reaches] at inside
  have store := inside _ (readi_negative_stores (by decide) reads)
  exact absurd store.2.1 (by decide)

end Xv6Hacks.ReadBounds
