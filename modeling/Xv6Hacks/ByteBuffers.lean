import Mathlib.Tactic

/-!
# Byte buffers

Buffers addressed by byte offset, the little-endian numbers and the single bits
stored in them, and what a write leaves of the rest of the buffer. Nothing here
fixes a buffer's length or a record layout.
-/

namespace Xv6Hacks.ByteBuffers

open Function

abbrev Byte := BitVec 8

abbrev Buffer := Nat → Byte

def readLE (buf : Buffer) (off : Nat) : Nat → Nat
  | 0 => 0
  | width + 1 => (buf off).toNat + 256 * readLE buf (off + 1) width

/-- The byte of weight `256 ^ index` of a number. -/
def byteOf (value index : Nat) : Byte := BitVec.ofNat 8 (value / 256 ^ index)

def writeLE (buf : Buffer) (off width value : Nat) : Buffer := fun index =>
  if off ≤ index ∧ index < off + width then byteOf value (index - off) else buf index

theorem read_le_congr (left right : Buffer) (off width : Nat)
    (same : ∀ index, off ≤ index → index < off + width → left index = right index) :
    readLE left off width = readLE right off width := by
  induction width generalizing off with
  | zero => rfl
  | succ width ih =>
    simp only [readLE]
    rw [same off le_rfl (by omega)]
    rw [ih (off + 1) fun index lower upper => same index (by omega) (by omega)]

theorem read_le_of_bytes (buf : Buffer) (off width value : Nat)
    (bytes : ∀ index, index < width → buf (off + index) = byteOf value index) :
    readLE buf off width = value % 256 ^ width := by
  induction width generalizing off value with
  | zero => simp [readLE, Nat.mod_one]
  | succ width ih =>
    have head := bytes 0 (by omega)
    have rest := ih (off + 1) (value / 256) fun index bound => by
      have shifted := bytes (index + 1) (by omega)
      rw [show off + (index + 1) = off + 1 + index by omega] at shifted
      rw [shifted, byteOf, byteOf, pow_succ, Nat.mul_comm, ← Nat.div_div_eq_div_mul]
    have first : (buf off).toNat = value % 256 := by
      simpa [byteOf] using congrArg BitVec.toNat head
    rw [readLE, first, rest, pow_succ, Nat.mul_comm (256 ^ width) 256, Nat.mod_mul]

theorem read_le_write_same (buf : Buffer) (off width value : Nat) :
    readLE (writeLE buf off width value) off width = value % 256 ^ width := by
  apply read_le_of_bytes
  intro index bound
  simp only [writeLE]
  rw [if_pos ⟨by omega, by omega⟩, Nat.add_sub_cancel_left]

theorem read_le_write_apart (buf : Buffer) (off width value other count : Nat)
    (apart : other + count ≤ off ∨ off + width ≤ other) :
    readLE (writeLE buf off width value) other count = readLE buf other count := by
  apply read_le_congr
  intro index lower upper
  simp only [writeLE]
  rw [if_neg (by omega)]

theorem write_le_outside (buf : Buffer) (off width value index : Nat)
    (outside : index < off ∨ off + width ≤ index) : writeLE buf off width value index = buf index := by
  simp only [writeLE]
  rw [if_neg (by omega)]

/-- The numbers `value 0`, `value 1`, ... stored one after the other. -/
def writeArray (buf : Buffer) (off width : Nat) (value : Nat → Nat) : Nat → Buffer
  | 0 => buf
  | count + 1 =>
    writeLE (writeArray buf off width value count) (off + width * count) width (value count)

section
variable (buf : Buffer) (off width : Nat) (value : Nat → Nat)
include buf off width value

theorem write_array_outside (count index : Nat)
    (outside : index < off ∨ off + width * count ≤ index) :
    writeArray buf off width value count index = buf index := by
  induction count with
  | zero => rfl
  | succ count ih =>
    rw [Nat.mul_succ] at outside
    rw [writeArray, write_le_outside _ _ _ _ _ (by omega)]
    exact ih (by omega)

theorem read_le_write_array_apart (count other size : Nat)
    (apart : other + size ≤ off ∨ off + width * count ≤ other) :
    readLE (writeArray buf off width value count) other size = readLE buf other size := by
  apply read_le_congr
  intro index lower upper
  exact write_array_outside buf off width value count index (by omega)

theorem read_le_write_array_at (count index : Nat) (bound : index < count) :
    readLE (writeArray buf off width value count) (off + width * index) width =
    value index % 256 ^ width := by
  induction count with
  | zero => omega
  | succ count ih =>
    rw [writeArray]
    by_cases last : index = count
    · subst last
      exact read_le_write_same _ _ _ _
    · have earlier : width * (index + 1) ≤ width * count :=
        Nat.mul_le_mul_left width (by omega)
      rw [Nat.mul_succ] at earlier
      rw [read_le_write_apart _ _ _ _ _ _ (.inl (by omega))]
      exact ih (by omega)

end

def copyInto (buf : Buffer) (off : Nat) (bytes : List Byte) : Buffer := fun index =>
  if off ≤ index ∧ index < off + bytes.length then bytes.getD (index - off) 0 else buf index

def bitMask (bit : Nat) : Byte := 1#8 <<< (bit % 8)

def bitSet (buf : Buffer) (bit : Nat) : Bool := (buf (bit / 8) &&& bitMask bit) != 0#8

def setBit (buf : Buffer) (bit : Nat) : Buffer :=
  update buf (bit / 8) (buf (bit / 8) ||| bitMask bit)

def clearBit (buf : Buffer) (bit : Nat) : Buffer :=
  update buf (bit / 8) (buf (bit / 8) &&& ~~~ bitMask bit)

theorem mask_get_lsb (bit position : Nat) (small : position < 8) :
    (bitMask bit).getLsbD position = decide (position = bit % 8) := by
  have reduced : bit % 8 < 8 := Nat.mod_lt _ (by omega)
  simp only [bitMask, BitVec.getLsbD_shiftLeft, BitVec.getLsbD_one]
  by_cases before : position < bit % 8
  · simp [before, small, show position ≠ bit % 8 by omega]
  · by_cases same : position = bit % 8
    · simp [same, reduced]
    · simp [same, small, show ¬ position - bit % 8 = 0 by omega]

theorem bit_set_eq (buf : Buffer) (bit : Nat) :
    bitSet buf bit = (buf (bit / 8)).getLsbD (bit % 8) := by
  have reduced : bit % 8 < 8 := Nat.mod_lt _ (by omega)
  have masked : ∀ position, position < 8 →
      (buf (bit / 8) &&& bitMask bit).getLsbD position =
        ((buf (bit / 8)).getLsbD (bit % 8) && decide (position = bit % 8)) := by
    intro position small
    rw [BitVec.getLsbD_and, mask_get_lsb bit position small]
    by_cases same : position = bit % 8
    · simp [same]
    · simp [same]
  cases value : (buf (bit / 8)).getLsbD (bit % 8) with
  | false =>
    have empty : buf (bit / 8) &&& bitMask bit = 0#8 := by
      apply BitVec.eq_of_getLsbD_eq
      intro position small
      rw [masked position small, value]
      simp
    simp [bitSet, empty]
  | true =>
    have found := masked (bit % 8) reduced
    rw [value] at found
    have nonzero : buf (bit / 8) &&& bitMask bit ≠ 0#8 := by
      intro empty
      rw [empty] at found
      simp at found
    simp [bitSet, nonzero]

theorem bit_set_set_bit (buf : Buffer) (bit other : Nat) :
    bitSet (setBit buf bit) other = (decide (other = bit) || bitSet buf other) := by
  have reduced : other % 8 < 8 := Nat.mod_lt _ (by omega)
  rw [bit_set_eq, bit_set_eq, setBit]
  by_cases byte : other / 8 = bit / 8
  · rw [byte, update_self, BitVec.getLsbD_or, mask_get_lsb bit _ reduced, Bool.or_comm]
    congr 1
    apply decide_eq_decide.mpr
    omega
  · rw [update_of_ne byte]
    simp [show other ≠ bit by rintro rfl; exact byte rfl]

theorem bit_set_clear_bit (buf : Buffer) (bit other : Nat) :
    bitSet (clearBit buf bit) other = (decide (other ≠ bit) && bitSet buf other) := by
  have reduced : other % 8 < 8 := Nat.mod_lt _ (by omega)
  rw [bit_set_eq, bit_set_eq, clearBit]
  by_cases byte : other / 8 = bit / 8
  · rw [byte, update_self, BitVec.getLsbD_and, BitVec.getLsbD_not,
      mask_get_lsb bit _ reduced, Bool.and_comm]
    have same : other % 8 = bit % 8 ↔ other = bit := by omega
    simp [same, reduced]
  · rw [update_of_ne byte]
    simp [show other ≠ bit by rintro rfl; exact byte rfl]

end Xv6Hacks.ByteBuffers
