import Xv6Hacks.DiskFormat

/-!
# Which inode owns which block

An inode refers to blocks through the entries of `addrs[]` and through the entries
of the block named by `addrs[NDIRECT]`. `Owned` says that every reference is the
physical block of a virtual block in use, that no block is referred to twice, and
that the virtual blocks not in use are still blank. Both `mkfs` and the kernel keep
it; the lemmas say what each kind of change to an inode or to a block does to it.
-/

namespace Xv6Hacks.BlockOwnership

open BlockGroupLayout ByteBuffers DiskFormat Function WriteSequences

inductive Place where
  | addr (index : Nat)
  | entry (index : Nat)
  deriving DecidableEq

/-- The block number an inode holds at a place, zero when it holds none. -/
def refAt (disk : Store Buffer) (d : Dinode) : Place → Nat
  | .addr index => d.addr index
  | .entry index =>
    if d.addr ndirect = 0 ∨ nindirect ≤ index then 0
    else readLE (disk (d.addr ndirect)) (sizeofUint * index) sizeofUint

def blockPlace (bn : Nat) : Place :=
  if bn < ndirect then .addr bn else .entry (bn - ndirect)

theorem block_place_data (bn : Nat) : blockPlace bn ≠ .addr ndirect := by
  rw [blockPlace]
  split
  · rename_i direct
    intro same
    injection same
    omega
  · simp

theorem block_place_injective {left right : Nat} (same : blockPlace left = blockPlace right) :
    left = right := by
  unfold blockPlace at same
  split at same
  · split at same
    · injection same
    · cases same
  · split at same
    · cases same
    · injection same with equal
      omega

theorem ref_at_blank (disk : Store Buffer) (place : Place) : refAt disk Dinode.blank place = 0 := by
  cases place with
  | addr index => exact Dinode.blank_addr index
  | entry index => simp [refAt, Dinode.blank_addr]

theorem ref_at_congr (disk after : Store Buffer) (d changed : Dinode)
    (addrs : changed.addrs = d.addrs)
    (indirect : d.addr ndirect ≠ 0 → after (d.addr ndirect) = disk (d.addr ndirect))
    (place : Place) : refAt after changed place = refAt disk d place := by
  have addr (index : Nat) : changed.addr index = d.addr index := by
    simp only [Dinode.addr, addrs]
  cases place with
  | addr index => exact addr index
  | entry index =>
    simp only [refAt, addr]
    by_cases absent : d.addr ndirect = 0
    · simp [absent]
    · rw [indirect absent]

theorem ref_at_shrinks (disk after : Store Buffer) (d fewer : Dinode)
    (addrs : ∀ index, fewer.addr index = d.addr index ∨ fewer.addr index = 0)
    (indirect : d.addr ndirect ≠ 0 →
    after (d.addr ndirect) = disk (d.addr ndirect) ∨ after (d.addr ndirect) = blankBlock)
    (place : Place) :
    refAt after fewer place = refAt disk d place ∨ refAt after fewer place = 0 := by
  cases place with
  | addr index => exact addrs index
  | entry index =>
    simp only [refAt]
    rcases addrs ndirect with same | gone
    · rw [same]
      by_cases absent : d.addr ndirect = 0
      · simp [absent]
      · rcases indirect absent with kept | blanked
        · rw [kept]
          exact .inl rfl
        · rw [blanked, read_blank_block]
          simp
    · simp [gone]

theorem ref_at_set_direct (disk : Store Buffer) (d : Dinode) (index value : Nat)
    (direct : index < ndirect) (place : Place) (other : place ≠ .addr index) :
    refAt disk (d.setAddr index value) place = refAt disk d place := by
  cases place with
  | addr slot =>
    apply Dinode.addr_set_other
    intro same
    exact other (by rw [same])
  | entry slot =>
    simp only [refAt]
    rw [Dinode.addr_set_other d index ndirect value (by omega)]

theorem ref_at_set_indirect (disk : Store Buffer) (d : Dinode) (value : Nat) (uint : value < 2 ^ 32)
    (absent : d.addr ndirect = 0) (empty : disk value = blankBlock) (place : Place)
    (other : place ≠ .addr ndirect) :
    refAt disk (d.setAddr ndirect value) place = refAt disk d place := by
  cases place with
  | addr slot =>
    apply Dinode.addr_set_other
    intro same
    exact other (by rw [same])
  | entry slot =>
    simp only [refAt]
    rw [Dinode.addr_set_same d ndirect value (by omega) uint, empty, read_blank_block, absent]
    simp

structure Owned (groups : Nat) (taken : Nat → Prop) (inodes : Nat → Dinode)
    (disk : Store Buffer) : Prop where
  mapped : ∀ inum place, refAt disk (inodes inum) place ≠ 0 →
    ∃ v, v % ndatablocks ≠ 0 ∧ taken v ∧
      refAt disk (inodes inum) place = dblock v (mkfsSuperblock groups)
  distinct : ∀ inum place other elsewhere, refAt disk (inodes inum) place ≠ 0 →
    refAt disk (inodes inum) place = refAt disk (inodes other) elsewhere →
      inum = other ∧ place = elsewhere
  blank : ∀ v, v % ndatablocks ≠ 0 → ¬ taken v →
    disk (dblock v (mkfsSuperblock groups)) = blankBlock

section Changes
variable {groups : Nat} {taken : Nat → Prop} {inodes : Nat → Dinode} {disk : Store Buffer}

section
variable (owned : Owned groups taken inodes disk)
include owned

theorem Owned.taken_ne_free {inum : Nat} {place : Place} (held : refAt disk (inodes inum) place ≠ 0)
    {v : Nat} (free : ¬ taken v) :
    refAt disk (inodes inum) place ≠ dblock v (mkfsSuperblock groups) := by
  obtain ⟨used, -, inUse, located⟩ := owned.mapped inum place held
  rw [located]
  intro same
  rw [dblock_injective groups same] at inUse
  exact free inUse

theorem Owned.shrink (fewer : Nat → Dinode) (after : Store Buffer)
    (kept : ∀ inum place, refAt after (fewer inum) place = refAt disk (inodes inum) place ∨
    refAt after (fewer inum) place = 0) (blank : ∀ v, v % ndatablocks ≠ 0 → ¬ taken v →
    after (dblock v (mkfsSuperblock groups)) = blankBlock) : Owned groups taken fewer after := by
  have same {inum : Nat} {place : Place} (held : refAt after (fewer inum) place ≠ 0) :
      refAt after (fewer inum) place = refAt disk (inodes inum) place := by
    rcases kept inum place with same | gone
    · exact same
    · exact absurd gone held
  constructor
  · intro inum place held
    have here := same held
    rw [here] at held ⊢
    exact owned.mapped inum place held
  · intro inum place other elsewhere held equal
    have here := same held
    have there := same (equal ▸ held : refAt after (fewer other) elsewhere ≠ 0)
    rw [here, there] at equal
    rw [here] at held
    exact owned.distinct inum place other elsewhere held equal
  · exact blank

theorem Owned.extend (more : Nat → Dinode) (after : Store Buffer) (v holder : Nat)
    (position : Place) (inside : v % ndatablocks ≠ 0) (fresh : ¬ taken v)
    (added : refAt after (more holder) position = dblock v (mkfsSuperblock groups))
    (kept : ∀ inum place, inum ≠ holder ∨ place ≠ position →
    refAt after (more inum) place = refAt disk (inodes inum) place)
    (blank : ∀ free, free % ndatablocks ≠ 0 → ¬ taken free → free ≠ v →
    after (dblock free (mkfsSuperblock groups)) = blankBlock) :
    Owned groups (fun block => taken block ∨ block = v) more after := by
  have apart {inum : Nat} {place : Place} (elsewhere : inum ≠ holder ∨ place ≠ position)
      (held : refAt after (more inum) place ≠ 0) :
      refAt after (more inum) place ≠ dblock v (mkfsSuperblock groups) := by
    rw [kept inum place elsewhere] at held ⊢
    exact owned.taken_ne_free held fresh
  constructor
  · intro inum place held
    by_cases here : inum = holder ∧ place = position
    · obtain ⟨rfl, rfl⟩ := here
      exact ⟨v, inside, .inr rfl, added⟩
    · rw [kept inum place (by tauto)] at held ⊢
      obtain ⟨used, usedInside, inUse, located⟩ := owned.mapped inum place held
      exact ⟨used, usedInside, .inl inUse, located⟩
  · intro inum place other elsewhere held equal
    have otherHeld : refAt after (more other) elsewhere ≠ 0 := equal ▸ held
    by_cases here : inum = holder ∧ place = position
    · by_cases there : other = holder ∧ elsewhere = position
      · exact ⟨here.1.trans there.1.symm, here.2.trans there.2.symm⟩
      · obtain ⟨rfl, rfl⟩ := here
        exact absurd (equal.symm.trans added) (apart (by tauto) otherHeld)
    · by_cases there : other = holder ∧ elsewhere = position
      · obtain ⟨rfl, rfl⟩ := there
        exact absurd (equal.trans added) (apart (by tauto) held)
      · rw [kept inum place (by tauto)] at held equal
        rw [kept other elsewhere (by tauto)] at equal
        exact owned.distinct inum place other elsewhere held equal
  · intro free freeInside unused
    exact blank free freeInside (fun inUse => unused (.inl inUse))
      (fun same => unused (.inr same))

theorem Owned.indirect_ne {inum other : Nat} {place : Place}
    (held : refAt disk (inodes other) place ≠ 0)
    (elsewhere : inum ≠ other ∨ place ≠ .addr ndirect) :
    (inodes inum).addr ndirect ≠ refAt disk (inodes other) place := by
  intro same
  obtain ⟨sameInode, samePlace⟩ :=
    owned.distinct other place inum (.addr ndirect) held same.symm
  rcases elsewhere with different | different
  · exact different sameInode.symm
  · exact different samePlace

theorem Owned.frame (changed : Nat → Dinode) (after : Store Buffer)
    (addrs : ∀ inum, (changed inum).addrs = (inodes inum).addrs) (same : ∀ v, v % ndatablocks ≠ 0 →
    after (dblock v (mkfsSuperblock groups)) = disk (dblock v (mkfsSuperblock groups))) :
    Owned groups taken changed after := by
  apply owned.shrink
  · intro inum place
    left
    apply ref_at_congr _ _ _ _ (addrs inum)
    intro present
    obtain ⟨v, inside, -, located⟩ := owned.mapped inum (.addr ndirect) present
    have located : (inodes inum).addr ndirect = _ := located
    rw [located]
    exact same v inside
  · intro v inside free
    rw [same v inside]
    exact owned.blank v inside free

theorem Owned.mark (more : Nat → Prop)
    (grows : ∀ v, taken v → more v) : Owned groups more inodes disk := by
  constructor
  · intro inum place held
    obtain ⟨v, inside, inUse, located⟩ := owned.mapped inum place held
    exact ⟨v, inside, grows v inUse, located⟩
  · exact owned.distinct
  · intro v inside free
    exact owned.blank v inside fun inUse => free (grows v inUse)

theorem Owned.assign (v inum index : Nat) (bound : index < ndirect + 1)
    (inside : v % ndatablocks ≠ 0) (fresh : ¬ taken v)
    (uint : dblock v (mkfsSuperblock groups) < 2 ^ 32) (absent : (inodes inum).addr index = 0) :
    Owned groups (fun block => taken block ∨ block = v) (update inodes inum
    ((inodes inum).setAddr index (dblock v (mkfsSuperblock groups)))) disk := by
  apply owned.extend _ _ v inum (.addr index) inside fresh
  · rw [update_self]
    exact Dinode.addr_set_same _ index _ bound uint
  · intro other place elsewhere
    by_cases same : other = inum
    · subst same
      have different : place ≠ .addr index := by tauto
      rw [update_self]
      by_cases direct : index < ndirect
      · exact ref_at_set_direct disk _ index _ direct place different
      · obtain rfl : index = ndirect := by omega
        exact ref_at_set_indirect disk _ _ uint absent (owned.blank v inside fresh) place
          different
    · rw [update_of_ne same]
  · intro free freeInside unused _
    exact owned.blank free freeInside unused

theorem Owned.assign_entry (v inum index : Nat) (bound : index < nindirect)
    (inside : v % ndatablocks ≠ 0) (fresh : ¬ taken v)
    (uint : dblock v (mkfsSuperblock groups) < 2 ^ 32) (present : (inodes inum).addr ndirect ≠ 0) :
    Owned groups (fun block => taken block ∨ block = v) inodes
    (update disk ((inodes inum).addr ndirect)
    (writeLE (disk ((inodes inum).addr ndirect)) (sizeofUint * index) sizeofUint
    (dblock v (mkfsSuperblock groups)))) := by
  have held : refAt disk (inodes inum) (.addr ndirect) ≠ 0 := present
  apply owned.extend _ _ v inum (.entry index) inside fresh
  · simp only [refAt]
    rw [if_neg (by omega), update_self, read_le_write_same]
    exact Nat.mod_eq_of_lt uint
  · intro other place elsewhere
    by_cases same : other = inum
    · subst same
      cases place with
      | addr slot => rfl
      | entry slot =>
        have different : slot ≠ index := by
          rintro rfl
          simp at elsewhere
        simp only [refAt]
        rw [update_self, read_le_write_apart]
        simp only [sizeofUint]
        omega
    · apply ref_at_congr _ _ _ _ rfl
      intro _
      exact update_of_ne (owned.indirect_ne held (.inl same)) _ _
  · intro free freeInside unused _
    rw [update_of_ne]
    · exact owned.blank free freeInside unused
    · exact (owned.taken_ne_free held unused).symm

theorem Owned.store (inum : Nat) (place : Place) (data : place ≠ .addr ndirect)
    (held : refAt disk (inodes inum) place ≠ 0) (content : Buffer) : Owned groups taken inodes
    (update disk (refAt disk (inodes inum) place) content) := by
  apply owned.shrink
  · intro other elsewhere
    left
    apply ref_at_congr _ _ _ _ rfl
    intro _
    exact update_of_ne (owned.indirect_ne held (.inr data)) _ _
  · intro v inside free
    rw [update_of_ne (owned.taken_ne_free held free).symm]
    exact owned.blank v inside free

end
end Changes
end Xv6Hacks.BlockOwnership
