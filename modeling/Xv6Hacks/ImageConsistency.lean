import Xv6Hacks.Mkfs

/-!
# The image is consistent while it is built

`mkfs` puts inode `inum` into slot `inum % IPB` of block `IBLOCK(inum)`. Seen from
the block, slot `j` of inode block `q` of group `k` belongs to the inode number
`tenant k q j`, or to none when that number falls past the group's last inode.
`Sound` says that each slot holds the inode last written for its tenant and that the
blocks are `Owned`. It is kept as long as `freeblock` stays inside the first group,
which `balloc` asserts at the end.
-/

namespace Xv6Hacks.ImageConsistency

open BlockGroupLayout BlockOwnership ByteBuffers DiskFormat Function Mkfs

variable {image after : Image} {inodes : Nat → Dinode} {inum : Nat} {d : Dinode}

def tenant (k q j : Nat) : Nat := 29 * k + 8 * q + (j + 3 * k) % 8

def inodeBlock (k q : Nat) : Nat := 4065 * k + q + 33

def view (image : Image) (inum : Nat) : Dinode := (image.written inum).getD Dinode.blank

def tenantInode (image : Image) (k q j : Nat) : Dinode :=
  if 8 * q + (j + 3 * k) % 8 < 29 then view image (tenant k q j) else Dinode.blank

theorem iblock_inode_block (inum : Nat) :
    iblock inum sb = inodeBlock (inum / 29) (inum % 29 / 8) := by
  rw [sb, iblock_eq, inodeBlock]
  omega

theorem tenant_own_slot (inum : Nat) : tenant (inum / 29) (inum % 29 / 8) (inum % 8) = inum := by
  rw [tenant]
  omega

theorem own_slot_inside (inum : Nat) :
    8 * (inum % 29 / 8) + (inum % 8 + 3 * (inum / 29)) % 8 < 29 := by
  omega

theorem own_slot_of_tenant (inum k q j : Nat) (block : q < 4) (slot : j < 8)
    (inside : 8 * q + (j + 3 * k) % 8 < 29) (same : tenant k q j = inum) :
    k = inum / 29 ∧ q = inum % 29 / 8 ∧ j = inum % 8 := by
  rw [tenant] at same
  have group : inum / 29 = k := by omega
  have rest : inum % 29 = 8 * q + (j + 3 * k) % 8 := by omega
  refine ⟨group.symm, ?_, ?_⟩
  · rw [rest]
    omega
  · omega

theorem inode_block_injective (k q other another : Nat) (left : q < 4) (right : another < 4)
    (same : inodeBlock k q = inodeBlock other another) : k = other ∧ q = another := by
  simp only [inodeBlock] at same
  omega

theorem dblock_ne_inode_block (v k q : Nat) (block : q < 4) (inside : v % ndatablocks ≠ 0) :
    dblock v (mkfsSuperblock blockgroups) ≠ inodeBlock k q := by
  rw [ndatablocks_value] at inside
  rw [dblock_eq, inodeBlock]
  omega

theorem dblock_uint (v : Nat) (bound : v < ndatablocks) :
    dblock v (mkfsSuperblock blockgroups) < 2 ^ 32 := by
  rw [ndatablocks_value] at bound
  rw [dblock_eq]
  omega

theorem dblock_ne_zero (v : Nat) : dblock v (mkfsSuperblock blockgroups) ≠ 0 := by
  rw [dblock_eq]
  omega

structure Sound (image : Image) (inodes : Nat → Dinode) : Prop where
  length : image.length = fssize blockgroups
  super : image.sector 1 = writeSuperblock blankBlock sb
  slots : ∀ k q j, k < blockgroups → q < 4 → j < 8 →
    readDinode (image.sector (inodeBlock k q)) j = tenantInode image k q j
  started : 0 < image.freeblock
  owned : Owned blockgroups (fun v => v < image.freeblock) inodes image.sector

theorem rsect_eq (sec : Nat) (image : Image) (buf : Buffer)
    (read : rsect sec image = some buf) : sec < image.length ∧ buf = image.sector sec := by
  simp only [rsect] at read
  split at read
  · rename_i inside
    exact ⟨inside, (Option.some.inj read).symm⟩
  · contradiction

theorem iblock_on_image (inum : Nat) (inside : iblock inum sb < fssize blockgroups) :
    inum / 29 < blockgroups := by
  rw [sb, iblock_eq, fssize_eq] at inside
  rw [blockgroups] at inside ⊢
  omega

theorem rinode_view (sound : Sound image inodes) {din : Dinode}
    (read : rinode inum image = some din) : din = view image inum ∧ inum / 29 < blockgroups := by
  simp only [rinode, Option.bind_eq_bind, Option.bind_eq_some_iff, Option.some.injEq] at read
  obtain ⟨buf, found, rfl⟩ := read
  obtain ⟨inside, rfl⟩ := rsect_eq _ _ _ found
  rw [sound.length] at inside
  have group := iblock_on_image inum inside
  rw [iblock_inode_block, ipb_value, sound.slots _ _ _ group (by omega) (by omega), tenantInode,
    if_pos (own_slot_inside inum), tenant_own_slot]
  exact ⟨rfl, group⟩

theorem winode_counters (written : winode inum d image = some after) :
    after.written = update image.written inum (some d) ∧
    after.freeinode = image.freeinode ∧ after.freeblock = image.freeblock := by
  simp only [winode, Option.bind_eq_bind, Option.bind_eq_some_iff, Option.some.injEq] at written
  obtain ⟨buf, -, rfl⟩ := written
  exact ⟨rfl, rfl, rfl⟩

theorem winode_sound (sound : Sound image (update inodes inum d))
    (written : winode inum d image = some after) :
    Sound after (update inodes inum d) ∧ inum / 29 < blockgroups := by
  simp only [winode, Option.bind_eq_bind, Option.bind_eq_some_iff, Option.some.injEq] at written
  obtain ⟨buf, found, rfl⟩ := written
  obtain ⟨inside, rfl⟩ := rsect_eq _ _ _ found
  have group := iblock_on_image inum (sound.length ▸ inside)
  refine ⟨⟨?_, ?_, ?_, sound.started, ?_⟩, group⟩
  · simp only [wsect]
    rw [Nat.max_eq_left inside, sound.length]
  · simp only [wsect, iblock_inode_block]
    rw [update_of_ne (by rw [inodeBlock]; omega)]
    exact sound.super
  · intro k q j groupBound block slot
    simp only [wsect, iblock_inode_block, ipb_value]
    have before := sound.slots k q j groupBound block slot
    simp only [tenantInode, view] at before ⊢
    by_cases here : k = inum / 29 ∧ q = inum % 29 / 8 ∧ j = inum % 8
    · obtain ⟨rfl, rfl, rfl⟩ := here
      rw [update_self, read_write_dinode_same, if_pos (own_slot_inside inum),
        tenant_own_slot, update_self]
      rfl
    · have content : readDinode (update image.sector (inodeBlock (inum / 29) (inum % 29 / 8))
          (writeDinode (image.sector (inodeBlock (inum / 29) (inum % 29 / 8))) (inum % 8) d)
          (inodeBlock k q)) j = readDinode (image.sector (inodeBlock k q)) j := by
        by_cases same : inodeBlock k q = inodeBlock (inum / 29) (inum % 29 / 8)
        · obtain ⟨rfl, rfl⟩ := inode_block_injective _ _ _ _ block (by omega) same
          rw [update_self]
          apply read_write_dinode_other
          tauto
        · rw [update_of_ne same]
      rw [content, before]
      split
      · rename_i inGroup
        rw [update_of_ne]
        intro same
        exact here (own_slot_of_tenant inum k q j block slot inGroup same)
      · rfl
  · apply sound.owned.frame
    · intro _
      rfl
    · intro v valid
      simp only [wsect, iblock_inode_block]
      apply update_of_ne
      exact dblock_ne_inode_block v _ _ (by omega) valid

/-- What giving blocks to one inode may change. The blocks are sound afterwards if
the last block taken still lies in the first group. -/
structure Filled (inodes : Nat → Dinode) (inum : Nat) (image : Image) (din : Dinode)
    (after : Image) (grown : Dinode) : Prop where
  sound : after.freeblock ≤ ndatablocks → Sound image (update inodes inum din) →
    Sound after (update inodes inum grown)
  freeblock : image.freeblock ≤ after.freeblock
  written : after.written = image.written
  freeinode : after.freeinode = image.freeinode
  kept : ∀ index, din.addr index ≠ 0 → grown.addr index = din.addr index
  fields : { grown with addrs := din.addrs } = din

theorem Filled.refl (inodes : Nat → Dinode) (inum : Nat) (image : Image) (din : Dinode) :
    Filled inodes inum image din image din :=
  ⟨fun _ sound => sound, le_rfl, rfl, rfl, fun _ _ => rfl, rfl⟩

theorem Filled.trans {middle : Image} {din partway grown : Dinode}
    (first : Filled inodes inum image din middle partway)
    (second : Filled inodes inum middle partway after grown) :
    Filled inodes inum image din after grown where
  sound := fun small sound =>
    second.sound small (first.sound (Nat.le_trans second.freeblock small) sound)
  freeblock := Nat.le_trans first.freeblock second.freeblock
  written := second.written.trans first.written
  freeinode := second.freeinode.trans first.freeinode
  kept := by
    intro index held
    have partwayHeld := first.kept index held
    rw [second.kept index (partwayHeld ▸ held), partwayHeld]
  fields := by
    have earlier := first.fields
    have later := second.fields
    cases din
    cases partway
    cases grown
    simp_all

theorem fill_addr_filled (inodes : Nat → Dinode) (inum : Nat) (image : Image) (din : Dinode)
    (index : Nat) (bound : index < ndirect + 1) :
    Filled inodes inum image din (fillAddr din index image).2 (fillAddr din index image).1 := by
  rw [fillAddr]
  split
  · rename_i absent
    constructor
    case sound =>
      intro small sound
      have started := sound.started
      simp only at small
      have inside : image.freeblock % ndatablocks ≠ 0 := by
        rw [Nat.mod_eq_of_lt (by omega)]
        omega
      have uint := dblock_uint image.freeblock (by omega)
      have assigned := sound.owned.assign image.freeblock inum index bound inside
        (lt_irrefl _) uint (by rw [update_self]; exact absent)
      rw [update_self, update_idem] at assigned
      refine ⟨sound.length, sound.super, sound.slots, Nat.succ_pos _, assigned.mark _ ?_⟩
      intro v inUse
      simp only
      omega
    case freeblock => exact Nat.le_succ _
    case written => rfl
    case freeinode => rfl
    case kept =>
      intro other held
      apply Dinode.addr_set_other
      rintro rfl
      exact held absent
    case fields => rfl
  · exact Filled.refl inodes inum image din

theorem fill_addr_held (image : Image) (din : Dinode) (index : Nat) (bound : index < ndirect + 1)
    (small : (fillAddr din index image).2.freeblock ≤ ndatablocks) :
    (fillAddr din index image).1.addr index ≠ 0 := by
  rw [fillAddr] at small ⊢
  split
  · rename_i absent
    rw [if_pos absent] at small
    simp only at small ⊢
    rw [Dinode.addr_set_same _ _ _ bound (dblock_uint image.freeblock (by omega))]
    exact dblock_ne_zero image.freeblock
  · assumption

theorem Sound.write_held {changed : Nat → Dinode} {freeblock : Nat} (sound : Sound image inodes)
    (inum : Nat) (place : Place) (content : Buffer)
    (held : refAt image.sector (inodes inum) place ≠ 0)
    (inside : refAt image.sector (inodes inum) place < image.length) (started : 0 < freeblock)
    (owned : Owned blockgroups (fun v => v < freeblock) changed
      (update image.sector (refAt image.sector (inodes inum) place) content)) :
    Sound (wsect (refAt image.sector (inodes inum) place) content
      { image with freeblock := freeblock }) changed := by
  obtain ⟨v, valid, -, located⟩ := sound.owned.mapped inum place held
  constructor
  · exact (Nat.max_eq_left inside).trans sound.length
  · simp only [wsect]
    rw [update_of_ne]
    · exact sound.super
    · rw [located, dblock_eq]
      omega
  · intro k q j group block slot
    simp only [wsect]
    rw [update_of_ne]
    · exact sound.slots k q j group block slot
    · rw [located]
      exact (dblock_ne_inode_block v k q block valid).symm
  · exact started
  · exact owned

theorem fill_entry_freeblock_le {indirect index x : Nat}
    (filled : fillEntry indirect index image = some (x, after)) :
    image.freeblock ≤ after.freeblock := by
  simp only [fillEntry, Option.bind_eq_bind, Option.bind_eq_some_iff] at filled
  obtain ⟨buf, -, filled⟩ := filled
  split at filled
  · simp only [Option.some.injEq, Prod.mk.injEq] at filled
    rw [← filled.2]
    exact Nat.le_succ _
  · simp only [Option.some.injEq, Prod.mk.injEq] at filled
    rw [← filled.2]

theorem fill_entry_filled (inodes : Nat → Dinode) (inum : Nat) (image after : Image) (din : Dinode)
    (index x : Nat) (bound : index < nindirect)
    (present : after.freeblock ≤ ndatablocks → din.addr ndirect ≠ 0)
    (filled : fillEntry (din.addr ndirect) index image = some (x, after)) :
    Filled inodes inum image din after din ∧ (after.freeblock ≤ ndatablocks →
    refAt after.sector din (.entry index) = x ∧ x ≠ 0) := by
  simp only [fillEntry, Option.bind_eq_bind, Option.bind_eq_some_iff] at filled
  obtain ⟨buf, found, filled⟩ := filled
  obtain ⟨inside, rfl⟩ := rsect_eq _ _ _ found
  split at filled
  · simp only [Option.some.injEq, Prod.mk.injEq] at filled
    obtain ⟨rfl, rfl⟩ := filled
    constructor
    · constructor
      case sound =>
        intro small sound
        have started := sound.started
        have held := present small
        simp only [wsect] at small
        have valid : image.freeblock % ndatablocks ≠ 0 := by
          rw [Nat.mod_eq_of_lt (by omega)]
          omega
        have uint := dblock_uint image.freeblock (by omega)
        have assigned := sound.owned.assign_entry image.freeblock inum index bound valid
          (lt_irrefl _) uint (by rw [update_self]; exact held)
        have place : refAt image.sector (update inodes inum din inum)
            (.addr ndirect) = din.addr ndirect := by
          rw [update_self]
          rfl
        rw [update_self] at assigned
        have written := sound.write_held inum (.addr ndirect) _ (place ▸ held)
          (place ▸ inside) (Nat.succ_pos image.freeblock)
          (by rw [place]; exact assigned.mark _ (by intro v inUse; omega))
        rw [place] at written
        exact written
      case freeblock => exact Nat.le_succ _
      case written => rfl
      case freeinode => rfl
      case kept => exact fun _ _ => rfl
      case fields => rfl
    · intro small
      have held := present small
      simp only [wsect] at small
      simp only [refAt, wsect]
      rw [if_neg (by omega), update_self, read_le_write_same]
      exact ⟨Nat.mod_eq_of_lt (dblock_uint image.freeblock (by omega)), dblock_ne_zero _⟩
  · rename_i held
    simp only [Option.some.injEq, Prod.mk.injEq] at filled
    obtain ⟨rfl, rfl⟩ := filled
    constructor
    · exact Filled.refl inodes inum image din
    · intro small
      simp only [refAt]
      rw [if_neg (by omega)]
      exact ⟨rfl, held⟩

theorem map_block_filled (inodes : Nat → Dinode) (inum : Nat) (image after : Image)
    (din grown : Dinode) (fbn x : Nat) (bound : fbn < maxfile)
    (mapped : mapBlock din fbn image = some (grown, x, after)) :
    Filled inodes inum image din after grown ∧ (after.freeblock ≤ ndatablocks →
    refAt after.sector grown (blockPlace fbn) = x ∧ x ≠ 0) := by
  rw [mapBlock] at mapped
  rw [blockPlace]
  split at mapped
  · rename_i direct
    simp only [Option.some.injEq, Prod.mk.injEq] at mapped
    obtain ⟨rfl, rfl, rfl⟩ := mapped
    rw [if_pos direct]
    constructor
    · exact fill_addr_filled inodes inum image din fbn (by omega)
    · intro small
      exact ⟨rfl, fill_addr_held image din fbn (by omega) small⟩
  · rename_i indirect
    simp only [Option.bind_eq_bind, Option.bind_eq_some_iff, Prod.exists, Option.some.injEq,
      Prod.mk.injEq] at mapped
    obtain ⟨entry, last, filled, rfl, rfl, rfl⟩ := mapped
    rw [if_neg indirect]
    have first := fill_addr_filled inodes inum image din ndirect (by omega)
    obtain ⟨second, entry⟩ := fill_entry_filled inodes inum _ _ _ (fbn - ndirect) _
      (by simp only [maxfile] at bound; omega)
      (fun small => fill_addr_held image din ndirect (by omega)
        ((fill_entry_freeblock_le filled).trans small)) filled
    exact ⟨first.trans second, entry⟩

theorem store_filled (inodes : Nat → Dinode) (inum : Nat) (image : Image) (din : Dinode)
    (fbn x : Nat) (content : Buffer) (inside : x < image.length)
    (located : image.freeblock ≤ ndatablocks →
      refAt image.sector din (blockPlace fbn) = x ∧ x ≠ 0) :
    Filled inodes inum image din (wsect x content image) din where
  sound := by
    intro small sound
    obtain ⟨here, held⟩ := located small
    have place : refAt image.sector (update inodes inum din inum) (blockPlace fbn) =
        x := by
      rw [update_self]
      exact here
    have stored := sound.owned.store inum (blockPlace fbn) (block_place_data fbn)
      (place ▸ held) content
    have written := sound.write_held inum (blockPlace fbn) content (place ▸ held)
      (place ▸ inside) sound.started stored
    rw [place] at written
    exact written
  freeblock := le_rfl
  written := rfl
  freeinode := rfl
  kept := fun _ _ => rfl
  fields := rfl

theorem append_loop_step {din : Dinode} {off : Nat} {p : List Byte} {result : Dinode × Nat × Image}
    (nonempty : p ≠ []) (looped : appendLoop din off p image = some result) :
    ∃ partway x middle, off / bsize < maxfile ∧
    mapBlock din (off / bsize) image = some (partway, x, middle) ∧ x < middle.length ∧
    appendLoop partway (off + min p.length ((off / bsize + 1) * bsize - off))
    (p.drop (min p.length ((off / bsize + 1) * bsize - off)))
    (wsect x (copyInto (middle.sector x) (off - off / bsize * bsize)
    (p.take (min p.length ((off / bsize + 1) * bsize - off)))) middle) = some result := by
  rw [appendLoop, if_neg nonempty] at looped
  simp only [Option.bind_eq_bind, Option.bind_eq_some_iff, Prod.exists] at looped
  obtain ⟨_, bound, partway, x, middle, mapped, buf, found, rest⟩ := looped
  obtain ⟨inside, rfl⟩ := rsect_eq _ _ _ found
  refine ⟨partway, x, middle, ?_, mapped, inside, rest⟩
  simpa [guard] using bound

theorem append_loop_filled (inodes : Nat → Dinode) (inum : Nat) (din : Dinode) (off : Nat)
    (p : List Byte) (image : Image) (grown : Dinode) (last : Nat) (after : Image)
    (looped : appendLoop din off p image = some (grown, last, after)) :
    Filled inodes inum image din after grown ∧
    (after.freeblock ≤ ndatablocks → p ≠ [] → off = 0 → grown.addr 0 ≠ 0) := by
  by_cases empty : p = []
  · rw [appendLoop, if_pos empty] at looped
    simp only [Option.some.injEq, Prod.mk.injEq] at looped
    obtain ⟨rfl, -, rfl⟩ := looped
    exact ⟨Filled.refl inodes inum image din, fun _ nonempty => absurd empty nonempty⟩
  · obtain ⟨partway, x, middle, bound, mapped, inside, rest⟩ := append_loop_step empty looped
    obtain ⟨first, located⟩ :=
      map_block_filled inodes inum image middle din partway _ x bound mapped
    have second := store_filled inodes inum middle partway (off / bsize) x
      (copyInto (middle.sector x) (off - off / bsize * bsize)
        (p.take (min p.length ((off / bsize + 1) * bsize - off)))) inside located
    obtain ⟨third, -⟩ := append_loop_filled inodes inum partway _ _ _ grown last after rest
    refine ⟨(first.trans second).trans third, ?_⟩
    intro small _ start
    subst start
    obtain ⟨here, held⟩ := located (Nat.le_trans third.freeblock small)
    have direct : partway.addr 0 = x := here
    rw [third.kept 0 (direct ▸ held), direct]
    exact held
termination_by p.length
decreasing_by
  have room := block_has_room off
  have nonempty := List.length_pos_iff.mpr empty
  simp only [List.length_drop]
  omega

theorem Sound.held_on_image (sound : Sound image inodes) (small : image.freeblock ≤ ndatablocks)
    (inum : Nat) (place : Place) (held : refAt image.sector (inodes inum) place ≠ 0) :
    rsect (refAt image.sector (inodes inum) place) image =
    some (image.sector (refAt image.sector (inodes inum) place)) := by
  obtain ⟨v, -, used, located⟩ := sound.owned.mapped inum place held
  rw [rsect, if_pos]
  rw [ndatablocks_value] at small
  rw [located, dblock_eq, sound.length, fssize_eq, blockgroups]
  omega

theorem fill_addr_freeblock_le (din : Dinode) (index : Nat) (image : Image) :
    (fillAddr din index image).2.freeblock ≤ image.freeblock + 1 := by
  rw [fillAddr]
  split
  · exact le_rfl
  · exact Nat.le_succ _

theorem map_block_succeeds (inodes : Nat → Dinode) (inum : Nat) (image : Image) (din : Dinode)
    (fbn : Nat) (sound : Sound image (update inodes inum din))
    (room : image.freeblock + 2 ≤ ndatablocks) :
    ∃ grown x after, mapBlock din fbn image = some (grown, x, after) ∧
    after.freeblock ≤ image.freeblock + 2 := by
  have blocks := fill_addr_freeblock_le din
  rw [mapBlock]
  split
  · exact ⟨_, _, _, rfl, Nat.le_succ_of_le (blocks fbn image)⟩
  · have taken := blocks ndirect image
    have filled := fill_addr_filled inodes inum image din ndirect (by omega)
    have held := fill_addr_held image din ndirect (by omega) (by omega)
    have after := filled.sound (by omega) sound
    generalize fillAddr din ndirect image = result at taken held after
    obtain ⟨grown, middle⟩ := result
    have place : refAt middle.sector (update inodes inum grown inum) (.addr ndirect) =
        grown.addr ndirect := by
      rw [update_self]
      rfl
    simp only at taken
    have readable := after.held_on_image (by simp only; omega) inum (.addr ndirect)
      (by rw [place]; exact held)
    rw [place] at readable
    simp only [fillEntry, readable, Option.bind_eq_bind, Option.bind_some]
    split
    · exact ⟨_, _, _, rfl, Nat.succ_le_succ taken⟩
    · exact ⟨_, _, _, rfl, Nat.le_succ_of_le taken⟩

theorem append_loop_succeeds (inodes : Nat → Dinode) (inum : Nat) (din : Dinode) (off : Nat)
    (p : List Byte) (image : Image) (sound : Sound image (update inodes inum din))
    (fits : off + p.length ≤ maxfile * bsize)
    (room : image.freeblock + 2 * p.length ≤ ndatablocks) :
    ∃ grown after, appendLoop din off p image = some (grown, off + p.length, after) ∧
    after.freeblock ≤ image.freeblock + 2 * p.length := by
  by_cases empty : p = []
  · subst empty
    rw [appendLoop, if_pos rfl]
    exact ⟨din, image, rfl, by simp⟩
  · have nonempty := List.length_pos_iff.mpr empty
    have inBlock := block_has_room off
    have inFile : off / bsize < maxfile := by
      apply Nat.div_lt_of_lt_mul
      rw [Nat.mul_comm]
      omega
    obtain ⟨partway, x, middle, mapped, taken⟩ :=
      map_block_succeeds inodes inum image din (off / bsize) sound (by omega)
    obtain ⟨filled, located⟩ :=
      map_block_filled inodes inum image middle din partway _ x inFile mapped
    have middleSound := filled.sound (by omega) sound
    obtain ⟨here, held⟩ := located (by omega)
    have place : refAt middle.sector (update inodes inum partway inum)
        (blockPlace (off / bsize)) = x := by
      rw [update_self]
      exact here
    have readable := middleSound.held_on_image (by omega) inum (blockPlace (off / bsize))
      (by rw [place]; exact held)
    rw [place] at readable
    have stored := (store_filled inodes inum middle partway (off / bsize) x
      (copyInto (middle.sector x) (off - off / bsize * bsize)
        (p.take (min p.length ((off / bsize + 1) * bsize - off))))
      (rsect_eq _ _ _ readable).1 (fun _ => ⟨here, held⟩)).sound
      (by simp only [wsect]; omega) middleSound
    rcases append_loop_succeeds inodes inum partway
        (off + min p.length ((off / bsize + 1) * bsize - off))
        (p.drop (min p.length ((off / bsize + 1) * bsize - off))) _ stored
        (by rw [List.length_drop]; omega)
        (by rw [List.length_drop]; simp only [wsect]; omega) with
      ⟨grown, after, rest, restTaken⟩
    rw [List.length_drop] at rest restTaken
    exists grown, after
    constructor
    · rw [appendLoop, if_neg empty]
      simp only [Option.bind_eq_bind, guard, inFile, ↓reduceIte, Option.pure_def,
        Option.bind_some, mapped, readable, rest]
      congr 3
      omega
    · simp only [wsect] at restTaken
      omega
termination_by p.length
decreasing_by
  simp only [List.length_drop]
  omega

theorem view_written (written : after.written = update image.written inum (some d)) :
    view after = update (view image) inum d := by
  funext other
  simp only [view, written]
  by_cases same : other = inum
  · subst same
    simp
  · simp [same, view]

theorem winode_keeps {known : Dinode} (sound : Sound image (update (view image) inum known))
    (addrs : d.addrs = known.addrs) (written : winode inum d image = some after) :
    Sound after (view after) ∧ inum / 29 < blockgroups := by
  have relabelled : Sound image (update (view image) inum d) := by
    refine ⟨sound.length, sound.super, sound.slots, sound.started, ?_⟩
    apply sound.owned.frame
    · intro other
      by_cases same : other = inum
      · subst same
        simp [addrs]
      · simp [same]
    · intro _ _
      rfl
  rw [view_written (winode_counters written).1]
  exact winode_sound relabelled written

/-- Appending keeps the addresses an inode has and its fields other than the size. -/
structure Grown (d grown : Dinode) : Prop where
  kept : ∀ index, d.addr index ≠ 0 → grown.addr index = d.addr index
  fields : { grown with size := d.size, addrs := d.addrs } = d

theorem Grown.refl (d : Dinode) : Grown d d := ⟨fun _ _ => rfl, rfl⟩

theorem Grown.trans {partway grown : Dinode} (first : Grown d partway)
    (second : Grown partway grown) : Grown d grown where
  kept := by
    intro index held
    have partwayHeld := first.kept index held
    rw [second.kept index (partwayHeld ▸ held), partwayHeld]
  fields := by
    have earlier := first.fields
    have later := second.fields
    cases d
    cases partway
    cases grown
    simp_all

theorem Grown.type {grown : Dinode} (kept : Grown d grown) : grown.type = d.type := by
  have fields := congrArg Dinode.type kept.fields
  exact fields

/-- What one `iappend` does. The last part holds when the blocks it took lie in the
first group. -/
structure Appended (inum : Nat) (p : List Byte) (image after : Image) : Prop where
  freeblock : image.freeblock ≤ after.freeblock
  freeinode : after.freeinode = image.freeinode
  sound : after.freeblock ≤ ndatablocks → Sound image (view image) →
    Sound after (view after) ∧ ∃ grown,
      after.written = update image.written inum (some grown) ∧
      Grown (view image inum) grown ∧
      (p ≠ [] → (view image inum).size = 0 → grown.addr 0 ≠ 0)

theorem iappend_appended {p : List Byte} (appended : iappend inum p image = some after) :
    Appended inum p image after := by
  simp only [iappend, Option.bind_eq_bind, Option.bind_eq_some_iff, Prod.exists] at appended
  obtain ⟨din, read, grown, last, middle, looped, written⟩ := appended
  obtain ⟨filled, first⟩ :=
    append_loop_filled (view image) inum din _ p image grown last middle looped
  obtain ⟨record, freeinode, freeblock⟩ := winode_counters written
  constructor
  case freeblock =>
    rw [freeblock]
    exact filled.freeblock
  case freeinode =>
    rw [freeinode]
    exact filled.freeinode
  case sound =>
    intro small sound
    rw [freeblock] at small
    obtain ⟨rfl, -⟩ := rinode_view sound read
    have middleView : view middle = view image := by
      funext other
      simp only [view, filled.written]
    have middleSound := filled.sound small (by rw [update_eq_self]; exact sound)
    rw [← middleView] at middleSound
    have addrs : ({ grown with size := BitVec.ofNat 32 last } : Dinode).addrs = grown.addrs := rfl
    have keeps := (winode_keeps middleSound addrs written).1
    rw [filled.written] at record
    refine ⟨keeps, _, record, ?_, ?_⟩
    · have fields := filled.fields
      refine ⟨filled.kept, ?_⟩
      rw [Dinode.ext_iff] at fields ⊢
      exact ⟨fields.1, fields.2.1, fields.2.2.1, fields.2.2.2.1, rfl, rfl⟩
    · intro nonempty zero
      exact first small nonempty (by rw [zero]; rfl)

theorem iblock_readable (sound : Sound image inodes) (inum : Nat)
    (group : inum / 29 < blockgroups) :
    rsect (iblock inum sb) image = some (image.sector (iblock inum sb)) := by
  rw [rsect, if_pos]
  rw [blockgroups] at group
  rw [sb, iblock_eq, sound.length, fssize_eq, blockgroups]
  omega

theorem winode_succeeds (sound : Sound image inodes) (inum : Nat) (d : Dinode)
    (group : inum / 29 < blockgroups) : ∃ after, winode inum d image = some after := by
  simp only [winode, iblock_readable sound inum group, Option.bind_eq_bind, Option.bind_some]
  exact ⟨_, rfl⟩

theorem iappend_succeeds (inum : Nat) (p : List Byte) (sound : Sound image (view image))
    (group : inum / 29 < blockgroups)
    (fits : (view image inum).size.toNat + p.length ≤ maxfile * bsize)
    (room : image.freeblock + 2 * p.length ≤ ndatablocks) :
    ∃ after, iappend inum p image = some after ∧
    (view after inum).size.toNat = (view image inum).size.toNat + p.length ∧
    after.freeblock ≤ image.freeblock + 2 * p.length := by
  rcases Option.eq_none_or_eq_some (rinode inum image) with unread | ⟨din, read⟩
  · simp [rinode, iblock_readable sound inum group] at unread
  obtain ⟨rfl, -⟩ := rinode_view sound read
  have known : Sound image (update (view image) inum (view image inum)) := by
    rw [update_eq_self]
    exact sound
  obtain ⟨grown, middle, looped, taken⟩ :=
    append_loop_succeeds (view image) inum _ _ p image known fits room
  obtain ⟨filled, -⟩ := append_loop_filled (view image) inum _ _ p image grown _ middle looped
  rcases winode_succeeds (filled.sound (by omega) known) inum
    { grown with size := BitVec.ofNat 32 ((view image inum).size.toNat + p.length) } group with
    ⟨after, written⟩
  obtain ⟨record, -, freeblock⟩ := winode_counters written
  exists after
  refine ⟨?_, ?_, ?_⟩
  · simp only [iappend, read, looped, written, Option.bind_eq_bind, Option.bind_some]
  · rw [view, record, update_self, Option.getD_some, BitVec.toNat_ofNat]
    apply Nat.mod_eq_of_lt
    have limit : maxfile * bsize = 71680 := by decide
    omega
  · rw [freeblock]
    exact taken

end Xv6Hacks.ImageConsistency
