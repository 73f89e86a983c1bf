import Xv6Hacks.ByteBuffers

/-!
# The two `memmove`s

The kernel's copies downwards when the destination starts inside the source. The user
library's always copies upwards, so that a destination inside the source receives the first
`dst - src` bytes again and again.
-/

namespace Xv6Hacks.Memmove

open ByteBuffers Function

/-- `while(n-- > 0) *d++ = *s++`. -/
def copyUp : Nat → Nat → Nat → Buffer → Buffer
  | 0, _, _, mem => mem
  | n + 1, d, s, mem => copyUp n (d + 1) (s + 1) (update mem d (mem s))

/-- `while(n-- > 0) *--d = *--s`. -/
def copyDown : Nat → Nat → Nat → Buffer → Buffer
  | 0, _, _, mem => mem
  | n + 1, d, s, mem => copyDown n (d - 1) (s - 1) (update mem (d - 1) (mem (s - 1)))

def memmove (mem : Buffer) (dst src n : Nat) : Buffer :=
  if src < dst ∧ dst < (src + n) % 2 ^ 32 then copyDown n (dst + n) (src + n) mem
  else copyUp n dst src mem

/-- The one of `ulib.c`, whose `n` is an `int`. -/
def userMemmove (mem : Buffer) (dst src n : Nat) : Buffer :=
  copyUp (BitVec.ofNat 32 n).toInt.toNat dst src mem

def Moved (mem : Buffer) (dst src n : Nat) (after : Buffer) : Prop :=
  ∀ a, after a = if dst ≤ a ∧ a < dst + n then mem (src + (a - dst)) else mem a

variable {mem : Buffer} {dst src n : Nat}

theorem copy_up_moved (below : dst ≤ src) : Moved mem dst src n (copyUp n dst src mem) := by
  induction n generalizing dst src mem with
  | zero =>
    intro a
    rw [copyUp, if_neg (by omega)]
  | succ n ih =>
    intro a
    rw [copyUp, ih (by omega)]
    by_cases first : a = dst
    · rw [first, if_neg (by omega), if_pos (by omega), update_self, Nat.sub_self, Nat.add_zero]
    · by_cases later : dst + 1 ≤ a ∧ a < dst + 1 + n
      · rw [if_pos later, if_pos (by omega), update_of_ne (by omega)]
        congr 1
        omega
      · rw [if_neg later, if_neg (by omega), update_of_ne first]

/-- Upwards into the source, the bytes repeat with period `dst - src`. -/
theorem copy_up_repeats (above : src < dst) (a : Nat) : copyUp n dst src mem a =
      if dst ≤ a ∧ a < dst + n then mem (src + (a - dst) % (dst - src)) else mem a := by
  induction n generalizing dst src mem with
  | zero => rw [copyUp, if_neg (by omega)]
  | succ n ih =>
    rw [copyUp, ih (by omega), Nat.add_sub_add_right]
    by_cases first : a = dst
    · rw [first, if_neg (by omega), if_pos (by omega), update_self, Nat.sub_self, Nat.zero_mod,
        Nat.add_zero]
    · by_cases later : dst + 1 ≤ a ∧ a < dst + 1 + n
      · rw [if_pos later, if_pos (by omega), show a - dst = a - (dst + 1) + 1 by omega,
          Nat.add_mod_eq_ite]
        have small := Nat.mod_lt (a - (dst + 1)) (show 0 < dst - src by omega)
        by_cases wraps : src + 1 + (a - (dst + 1)) % (dst - src) = dst
        · rw [wraps, update_self]
          congr 1
          by_cases one : dst - src = 1
          · simp [one, Nat.mod_one]
          · rw [Nat.mod_eq_of_lt (show 1 < dst - src by omega), if_pos (by omega)]
            omega
        · rw [update_of_ne wraps, Nat.mod_eq_of_lt (show 1 < dst - src by omega),
            if_neg (by omega)]
          congr 1
          omega
      · rw [if_neg later, if_neg (by omega), update_of_ne first]

theorem copy_down_moved (above : src < dst) :
    Moved mem dst src n (copyDown n (dst + n) (src + n) mem) := by
  induction n generalizing mem with
  | zero =>
    intro a
    rw [copyDown, if_neg (by omega)]
  | succ n ih =>
    intro a
    rw [← Nat.add_assoc, ← Nat.add_assoc, copyDown, Nat.add_sub_cancel, Nat.add_sub_cancel, ih a]
    by_cases last : a = dst + n
    · rw [last, if_neg (by omega), if_pos (by omega), update_self, Nat.add_sub_cancel_left]
    · by_cases early : dst ≤ a ∧ a < dst + n
      · rw [if_pos early, if_pos (by omega), update_of_ne (by omega)]
      · rw [if_neg early, if_neg (by omega), update_of_ne last]

theorem memmove_moved (fits : dst + n ≤ 2 ^ 32) : Moved mem dst src n (memmove mem dst src n) := by
  rw [memmove]
  split
  · exact copy_down_moved (by omega)
  · by_cases above : src < dst
    · -- The ranges are apart, and nothing is read twice.
      intro a
      rw [copy_up_repeats above]
      split
      · rw [Nat.mod_eq_of_lt (by omega)]
      · rfl
    · exact copy_up_moved (by omega)

theorem user_count (small : n < 2 ^ 32) :
    (BitVec.ofNat 32 n).toInt.toNat = if n < 2 ^ 31 then n else 0 := by
  rw [BitVec.toInt_eq_toNat_cond, BitVec.toNat_ofNat, Nat.mod_eq_of_lt small]
  split
  · rw [if_pos (by omega)]
    exact Int.toNat_natCast n
  · rw [if_neg (by omega)]
    omega

/-- The bytes of the source repeat with the period in which they are copied; a count that is
negative as an `int` moves nothing. -/
def Harmless (mem : Buffer) (dst src n : Nat) : Prop :=
  if n < 2 ^ 31 then src < dst → ∀ i, i < n → mem (src + i % (dst - src)) = mem (src + i)
  else ∀ i, i < n → mem (dst + i) = mem (src + i)

theorem user_memmove_moved_iff (small : n < 2 ^ 32) :
    Moved mem dst src n (userMemmove mem dst src n) ↔ Harmless mem dst src n := by
  rw [userMemmove, user_count small, Harmless]
  by_cases positive : n < 2 ^ 31
  · rw [if_pos positive, if_pos positive]
    by_cases above : src < dst
    · constructor
      · intro moved _ i inside
        have byte := moved (dst + i)
        rwa [copy_up_repeats above, if_pos (by omega), if_pos (by omega),
          Nat.add_sub_cancel_left] at byte
      · intro period a
        rw [copy_up_repeats above]
        split
        · exact period above _ (by omega)
        · rfl
    · exact iff_of_true (copy_up_moved (by omega)) fun lower => absurd lower above
  · rw [if_neg positive, if_neg positive, copyUp]
    constructor
    · intro moved i inside
      have byte := moved (dst + i)
      rwa [if_pos (by omega), Nat.add_sub_cancel_left] at byte
    · intro same a
      split
      · rw [← same _ (by omega)]
        congr 1
        omega
      · rfl

/-- Both functions move the bytes exactly when the bytes survive being copied upwards. -/
theorem memmoves_agree_iff (mem : Buffer) (dst src n : Nat) (room : dst + n ≤ 2 ^ 32)
    (small : n < 2 ^ 32) : Moved mem dst src n (memmove mem dst src n) ∧
      Moved mem dst src n (userMemmove mem dst src n) ↔ Harmless mem dst src n := by
  rw [user_memmove_moved_iff small]
  exact ⟨fun both => both.2, fun harmless => ⟨memmove_moved room, harmless⟩⟩

theorem memmoves_agree_downwards : Moved (BitVec.ofNat 8) 0 1 2 (memmove (BitVec.ofNat 8) 0 1 2) ∧
      Moved (BitVec.ofNat 8) 0 1 2 (userMemmove (BitVec.ofNat 8) 0 1 2) :=
  (memmoves_agree_iff _ 0 1 2 (by decide) (by decide)).mpr
    fun above => absurd above (by decide)

theorem user_memmove_repeats : ¬ (Moved (BitVec.ofNat 8) 1 0 2 (memmove (BitVec.ofNat 8) 1 0 2) ∧
      Moved (BitVec.ofNat 8) 1 0 2 (userMemmove (BitVec.ofNat 8) 1 0 2)) := by
  rintro ⟨-, moved⟩
  exact absurd (moved 2) (by decide)

end Xv6Hacks.Memmove
