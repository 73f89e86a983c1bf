import Mathlib.Data.Nat.ModEq
import Mathlib.Tactic

/-!
# Ring buffers with free-running counters

A ring of `size` cells is addressed by two 32-bit counters that are never reset: one
counts the items taken out, the other the items put in, and both wrap. When the size
divides `2 ^ 32` the counters still name the right cells after wrapping. `Holds` relates
a ring to the list of the items in it; nothing here mentions a particular system.
-/

namespace Xv6Hacks.RingBuffers

open Function

structure RingBuffer (α : Type) where
  data : Nat → α
  nread : BitVec 32
  nwrite : BitVec 32

variable {α : Type} (size : Nat)

def RingBuffer.push (ring : RingBuffer α) (item : α) : RingBuffer α where
  data := update ring.data (ring.nwrite.toNat % size) item
  nread := ring.nread
  nwrite := ring.nwrite + 1

def RingBuffer.front (ring : RingBuffer α) : α := ring.data (ring.nread.toNat % size)

def RingBuffer.pop (ring : RingBuffer α) : RingBuffer α := { ring with nread := ring.nread + 1 }

/-- The items of the ring, in the order in which they were put in. -/
structure Holds (ring : RingBuffer α) (items : List α) : Prop where
  fits : items.length ≤ size
  count : ring.nwrite.toNat = (ring.nread.toNat + items.length) % 2 ^ 32
  cell : ∀ index (bound : index < items.length),
    items[index] = ring.data ((ring.nread.toNat + index) % size)

theorem counter_succ (counter : BitVec 32) :
    (counter + 1).toNat = (counter.toNat + 1) % 2 ^ 32 := BitVec.toNat_add counter 1

theorem cells_differ {start near far size : Nat} (later : near < far) (room : far < near + size) :
    (start + near) % size ≠ (start + far) % size := by
  intro same
  have congruent : near ≡ far [MOD size] := Nat.ModEq.add_left_cancel' start same
  have divides := (Nat.modEq_iff_dvd' later.le).mp congruent
  have bound := Nat.le_of_dvd (by omega) divides
  omega

variable {size} (small : size < 2 ^ 32) (divides : size ∣ 2 ^ 32) {ring : RingBuffer α} {items : List α}

include small in
theorem Holds.empty_iff (holds : Holds size ring items) :
    ring.nread = ring.nwrite ↔ items = [] := by
  have count := holds.count
  have fits := holds.fits
  rw [← BitVec.toNat_inj, count, ← List.length_eq_zero_iff]
  omega

include small in
theorem Holds.full_iff (holds : Holds size ring items) :
    ring.nwrite = ring.nread + BitVec.ofNat 32 size ↔ items.length = size := by
  have count := holds.count
  have fits := holds.fits
  rw [← BitVec.toNat_inj, count, BitVec.toNat_add, BitVec.toNat_ofNat]
  omega

include small in
theorem Holds.difference (holds : Holds size ring items) :
    (ring.nwrite - ring.nread).toNat = items.length := by
  have count := holds.count
  have fits := holds.fits
  rw [BitVec.toNat_sub, count]
  omega

include divides in
theorem Holds.push (holds : Holds size ring items) (room : items.length < size) (item : α) :
    Holds size (ring.push size item) (items ++ [item]) where
  fits := by
    rw [List.length_append, List.length_singleton]
    omega
  count := by
    have count := holds.count
    change (ring.nwrite + 1).toNat = (ring.nread.toNat + _) % 2 ^ 32
    rw [counter_succ, count, List.length_append, List.length_singleton]
    omega
  cell := by
    intro index bound
    -- The new cell is the one that the count of all items put in names.
    have target : ring.nwrite.toNat % size = (ring.nread.toNat + items.length) % size := by
      rw [holds.count, Nat.mod_mod_of_dvd _ divides]
    change _ = update ring.data (ring.nwrite.toNat % size) item
      ((ring.nread.toNat + index) % size)
    rw [target]
    rw [List.length_append, List.length_singleton] at bound
    by_cases new : index = items.length
    · subst new
      rw [update_self, List.getElem_append_right le_rfl]
      simp
    · have old : index < items.length := by omega
      rw [update_of_ne (cells_differ old (by omega)), List.getElem_append_left old]
      exact holds.cell index old

theorem Holds.front {item : α} (holds : Holds size ring (item :: items)) :
    ring.front size = item := (holds.cell 0 (by simp)).symm

include divides in
theorem Holds.pop {item : α} (holds : Holds size ring (item :: items)) :
    Holds size ring.pop items where
  fits := by
    have fits := holds.fits
    rw [List.length_cons] at fits
    omega
  count := by
    have count := holds.count
    rw [List.length_cons] at count
    change ring.nwrite.toNat = ((ring.nread + 1).toNat + _) % 2 ^ 32
    rw [counter_succ, count]
    omega
  cell := by
    intro index bound
    have here := holds.cell (index + 1) (by rw [List.length_cons]; omega)
    rw [List.getElem_cons_succ] at here
    have moved : ((ring.nread + 1).toNat + index) % size =
        (ring.nread.toNat + (index + 1)) % size := by
      rw [counter_succ, Nat.add_mod, Nat.mod_mod_of_dvd _ divides, ← Nat.add_mod]
      congr 1
      omega
    change items[index] = ring.data (((ring.nread + 1).toNat + index) % size)
    rw [here, moved]

def RingBuffer.contents (size : Nat) (ring : RingBuffer α) : List α :=
  (List.range (ring.nwrite - ring.nread).toNat).map fun index =>
    ring.data ((ring.nread.toNat + index) % size)

include small in
theorem Holds.contents (holds : Holds size ring items) : ring.contents size = items := by
  have length := holds.difference small
  apply List.ext_getElem
  · rw [RingBuffer.contents, List.length_map, List.length_range, length]
  · intro index _ bound
    rw [holds.cell index bound]
    simp only [RingBuffer.contents, List.getElem_map, List.getElem_range]

end Xv6Hacks.RingBuffers
