import Xv6Hacks.FileSystemRuns

/-!
# The indirect block that `bmap` keeps busy

For an empty entry of the indirect block `bmap` calls `balloc` while it holds the buffer of
the indirect block. `balloc` reads bitmap blocks, which are never the indirect block, and
clears the block whose number is the virtual number it took. When that number is the one of
the indirect block, `bget` waits for a buffer that its own caller holds.
-/

namespace Xv6Hacks.BusyIndirect

open BlockAccounting BlockAllocation BlockGroupLayout BlockOwnership ByteBuffers DiskFormat
open FileSystemRuns GuardedRuns KernelCalls KernelFs
open Outcomes (ok_bind)

/-- `bmap` needs a block for an entry of the indirect block, and the first free number is
the number of the indirect block. -/
def WaitsForItself (fs : Fs) (slot : CacheSlot) (bn cwd : Nat) : Prop :=
  ndirect ≤ bn ∧ bn < maxfile ∧ ∃ mapped, fillAddr fs slot ndirect cwd = .ok mapped ∧
    refAt mapped.disk (mapped.icache slot).din (.entry (bn - ndirect)) = 0 ∧
    FirstFree mapped cwd ((mapped.icache slot).din.addr ndirect)

/-- What holds of a file that is being written: its inode is locked, and the indirect
block, if there is one, came from `balloc`. -/
structure Placed (fs : Fs) (slot : CacheSlot) : Prop where
  holding : Holding fs slot
  indirect : (fs.icache slot).din.addr ndirect = 0 ∨
    ∃ v, v < layoutSb.size ∧ (fs.icache slot).din.addr ndirect = dblock v layoutSb

section Waiting
variable {fs : Fs} {cwd : Nat}

/-- Of the buffers that `balloc` asks for, only the one it clears can be held. -/
theorem balloc_asleep_iff (layout : fs.sb = layoutSb) {busy : Nat}
    (apart : ∀ u, busy ≠ bblock u layoutSb) :
    balloc fs (some busy) cwd = .error .asleep ↔ FirstFree fs cwd busy := by
  have free (u : Nat) : some busy ≠ some (bblock u fs.sb) := by
    rw [layout]
    exact fun same => apart u (Option.some.inj same)
  rcases balloc_scans layout free cwd with ⟨v, first, allocated⟩ | ⟨full, panicked⟩
  · rw [allocated]
    by_cases own : v = busy
    · subst own
      have size : fs.sb.nblocks = fs.sb.size := by
        rw [layout]
        decide
      have bitmap := bitmap_on_disk layout (size ▸ first.inRange)
      simp only [takeBlock, bzero, bread_free (free v) bitmap, ok_bind]
      simp only [bread, ↓reduceIte]
      exact ⟨fun _ => first, fun _ => rfl⟩
    · rw [take_block_returns layout (free v) (fun same => own (Option.some.inj same).symm)
        first.inRange]
      constructor
      · intro stopped
        contradiction
      · intro again
        exact absurd (first_free_unique first again) own
  · rw [panicked]
    constructor
    · simp
    · intro first
      exact absurd (full busy first.inRange) first.free

theorem fill_addr_awake (layout : fs.sb = layoutSb) (slot : CacheSlot) (index : Nat) :
    fillAddr fs slot index cwd ≠ .error .asleep := by
  rw [fillAddr]
  split
  · rcases balloc_scans layout (fun u => (Option.some_ne_none _).symm) cwd with
      ⟨v, first, allocated⟩ | ⟨-, panicked⟩
    · rw [allocated, take_block_returns layout (Option.some_ne_none _).symm
        (Option.some_ne_none _).symm first.inRange, ok_bind]
      simp
    · rw [panicked]
      exact fun stopped => by cases stopped
  · simp

theorem fill_entry_asleep_iff {slot : CacheSlot} {index v : Nat} (layout : fs.sb = layoutSb)
    (inside : index < nindirect) (range : v < layoutSb.size)
    (placed : (fs.icache slot).din.addr ndirect = dblock v layoutSb) :
    fillEntry fs slot index cwd = .error .asleep ↔
    refAt fs.disk (fs.icache slot).din (.entry index) = 0 ∧
    FirstFree fs cwd ((fs.icache slot).din.addr ndirect) := by
  have whole : layoutSb.size = blockgroups * ndatablocks := by decide
  have onDisk : (fs.icache slot).din.addr ndirect < fssize blockgroups := by
    rw [placed]
    exact dblock_on_disk blockgroups v (whole ▸ range)
  have present : ¬ ((fs.icache slot).din.addr ndirect = 0 ∨ nindirect ≤ index) := by
    rw [not_or]
    exact ⟨placed ▸ dblock_positive v, by omega⟩
  have apart (u : Nat) : (fs.icache slot).din.addr ndirect ≠ bblock u layoutSb := by
    rw [placed]
    exact dblock_ne_bblock v u
  simp only [fillEntry, bread_none onDisk, ok_bind, refAt, if_neg present]
  split
  · rename_i empty
    rw [bind_error, balloc_asleep_iff layout apart]
    simp [empty]
  · rename_i filled
    simp [filled]

theorem fill_addr_placed {after : Fs} {slot : CacheSlot} {index : Nat} (placed : Placed fs slot)
    (inside : index < ndirect + 1) (filled : fillAddr fs slot index cwd = .ok after) :
    Placed after slot ∧ (after.icache slot).din.addr index ≠ 0 := by
  have layout := placed.holding.layout
  obtain ⟨holding, present⟩ := fill_addr_holding placed.holding inside filled
  refine ⟨⟨holding, ?_⟩, present⟩
  rcases fill_addr_ok layout filled with ⟨-, rfl⟩ | ⟨-, v, first, rfl⟩
  · exact placed.indirect
  · rw [set_din_same]
    by_cases own : index = ndirect
    · subst own
      right
      refine ⟨v, layout ▸ first.inRange, ?_⟩
      exact Dinode.addr_set_same _ _ _ inside (first_free_uint layout first)
    · rw [Dinode.addr_set_other _ _ _ _ (Ne.symm own)]
      exact placed.indirect

theorem bmap_asleep_iff {slot : CacheSlot} (placed : Placed fs slot) (bn : Nat) :
    bmap fs slot bn cwd = .error .asleep ↔ WaitsForItself fs slot bn cwd := by
  have layout := placed.holding.layout
  have total : maxfile = ndirect + nindirect := rfl
  rw [bmap, WaitsForItself]
  split
  · rename_i direct
    rw [bind_error]
    constructor
    · rintro (stopped | ⟨_, -, stopped⟩)
      · exact absurd stopped (fill_addr_awake layout slot bn)
      · contradiction
    · rintro ⟨beyond, -⟩
      omega
  · rename_i beyond
    split
    · rename_i inside
      have entry {mapped : Fs} (first : fillAddr fs slot ndirect cwd = .ok mapped) :
          fillEntry mapped slot (bn - ndirect) cwd = .error .asleep ↔
            refAt mapped.disk (mapped.icache slot).din (.entry (bn - ndirect)) = 0 ∧
              FirstFree mapped cwd ((mapped.icache slot).din.addr ndirect) := by
        obtain ⟨still, present⟩ := fill_addr_placed placed ndirect.lt_succ_self first
        rcases still.indirect with absent | ⟨v, range, same⟩
        · exact absurd absent present
        · exact fill_entry_asleep_iff still.holding.layout inside range same
      rw [bind_error]
      constructor
      · rintro (stopped | ⟨mapped, first, stopped⟩)
        · exact absurd stopped (fill_addr_awake layout slot ndirect)
        · rw [bind_error] at stopped
          rcases stopped with asleep | ⟨_, -, stopped⟩
          · exact ⟨by omega, by omega, mapped, first, (entry first).mp asleep⟩
          · contradiction
      · rintro ⟨-, -, mapped, first, coincidence⟩
        right
        refine ⟨mapped, first, ?_⟩
        rw [bind_error]
        exact .inl ((entry first).mpr coincidence)
    · rename_i outside
      constructor
      · simp
      · rintro ⟨-, bound, -⟩
        omega

end Waiting

section Writing
variable {fs after : Fs} {slot : CacheSlot} {cwd : Nat}

theorem bmap_placed {bn p : Nat} (placed : Placed fs slot)
    (mapped : bmap fs slot bn cwd = .ok (p, after)) : Placed after slot := by
  obtain ⟨-, ⟨direct, first⟩ | ⟨-, inside, withIndirect, first, second⟩⟩ := bmap_ok mapped
  · exact (fill_addr_placed placed (by omega) first).1
  · obtain ⟨still, present⟩ := fill_addr_placed placed ndirect.lt_succ_self first
    refine ⟨(fill_entry_holding still.holding inside present second).1, ?_⟩
    rcases fill_entry_ok still.holding.layout second with ⟨-, rfl⟩ | ⟨-, v, -, rfl⟩
    · exact still.indirect
    · exact still.indirect

variable {device : BitVec 16 → Option Int}

theorem writei_placed {src : List Byte} {off : Nat} {count : Int} (placed : Placed fs slot)
    (wrote : writei fs device slot src off cwd = .ok (count, after)) : Placed after slot := by
  rcases writei_ok wrote with rfl | ⟨-, -, last, written, loop, ended⟩
  · exact placed
  have still : Placed written slot := by
    apply @write_loop_rule fs written slot cwd (fun fs _ _ => Placed fs slot) _ src off _ placed loop
    intro fs src off addr mapped stored _ placed first second
    have middle := bmap_placed placed first
    obtain rfl := store_bytes_ok second
    exact ⟨⟨middle.holding.layout, middle.holding.held⟩, middle.indirect⟩
  rcases ended with rfl | grew
  · exact still
  · rw [growSize] at grew
    obtain rfl := iupdate_ok grew
    constructor
    · constructor
      · exact still.holding.layout
      · exact (set_din_locked written slot _).trans still.holding.held
    · simp only [logWrite, set_din_same]
      exact still.indirect

def append (device : BitVec 16 → Option Int) (slot : CacheSlot) (fs : Fs)
    (call : List Byte × Nat) : Option Fs :=
  if locked (fs.icache slot) = true then
    ((writei fs device slot call.1 (fs.icache slot).din.size.toNat call.2).toOption).map Prod.snd
  else none

structure Fresh (fs : Fs) (slot : CacheSlot) : Prop where
  holding : Holding fs slot
  addrs : ∀ index, (fs.icache slot).din.addr index = 0
  size : (fs.icache slot).din.size = 0

theorem append_placed {call : List Byte × Nat} (placed : Placed fs slot)
    (appended : append device slot fs call = some after) : Placed after slot := by
  rw [append, if_pos placed.holding.held] at appended
  cases wrote : writei fs device slot call.1 (fs.icache slot).din.size.toNat call.2 with
  | error stop =>
    rw [wrote] at appended
    contradiction
  | ok result =>
    rw [wrote] at appended
    cases appended
    exact writei_placed placed wrote

theorem Fresh.placed {start : Fs} (fresh : Fresh start slot)
    (reached : Reaches (append device slot) (fun _ _ => True) start fs) : Placed fs slot := by
  refine reaches_invariant (fun fs => Placed fs slot) ⟨fresh.holding, ?_⟩ ?_ reached
  · exact .inl (fresh.addrs ndirect)
  · intro before call after kept _ appended
    exact append_placed kept appended

/-- Whatever the disk holds, while one file is written from its start on `bmap` waits for
its own buffer exactly under the coincidence. -/
theorem bmap_never_waits_iff (device : BitVec 16 → Option Int) {start : Fs}
    (fresh : Fresh start slot) (reached : Reaches (append device slot) (fun _ _ => True) start fs)
    (bn : Nat) : bmap fs slot bn cwd ≠ .error .asleep ↔ ¬ WaitsForItself fs slot bn cwd := by
  rw [Ne, bmap_asleep_iff (fresh.placed reached) bn]

end Writing

section NewFiles
/-- The file has its first `k` blocks; its indirect block, if there is one, is `n + 48`. -/
structure Blocks (fs : Fs) (n k : Nat) (ip : Inode) : Prop where
  file : NewFile fs (if ndirect < k then n + k + 1 else n + k) ip
  direct : ∀ index, index < ndirect → k ≤ index → ip.din.addr index = 0
  indirect : ip.din.addr ndirect = if ndirect < k then n + 48 else 0
  entries : ∀ index, index < nindirect → k ≤ ndirect + index →
    readLE (fs.disk (n + 48)) (sizeofUint * index) sizeofUint = 0

variable {fs : Fs} {ip : Inode} {n k : Nat}

theorem file_block_ne_bblock (n u : Nat) (small : n < 3900) (past : 33 ≤ n) :
    n + 48 ≠ bblock u layoutSb := by
  rw [bblock_eq]
  omega

theorem low_dblock {m : Nat} (small : m < 4060) : dblock m layoutSb = m + 36 := by
  rw [dblock_eq]
  omega

theorem fill_new_entry {m index : Nat} (file : NewFile fs m ip) (past : 157 ≤ n) (small : n < 3900)
    (lower : 157 ≤ m) (upper : m < 4000) (awake : n + 48 ≠ m)
    (indirect : ip.din.addr ndirect = n + 48)
    (empty : readLE (fs.disk (n + 48)) (sizeofUint * index) sizeofUint = 0) :
    ∃ after, fillEntry fs 0 index 1 = .ok after ∧ NewFile after (m + 1) ip ∧ after.disk (n + 48) =
    writeLE (fs.disk (n + 48)) (sizeofUint * index) sizeofUint (m + 36) := by
  have width := bpb_value
  have apart (u : Nat) := file_block_ne_bblock n u small (by omega)
  have onDisk : n + 48 < fssize blockgroups := by
    rw [fssize_eq, blockgroups]
    omega
  have allocated := file.balloc (by omega)
    (fun u same => apart u (Option.some.inj same)) (fun same => awake (Option.some.inj same))
  have kept := after_take_block file.layout awake (apart m)
  refine ⟨logWrite (afterTake fs m) (n + 48)
    (writeLE (fs.disk (n + 48)) (sizeofUint * index) sizeofUint (m + 36)), ?_, ?_, ?_⟩
  · simp only [fillEntry, file.entry, indirect, bread_none onDisk, ok_bind, empty, ↓reduceIte,
      allocated, low_dblock (show m < 4060 by omega), kept]
  · refine (file.take lower upper).write _ _ (by omega) ?_
    intro u same
    exact apart u same.symm
  · exact Function.update_self _ _ _

theorem Blocks.frame {after : Fs} {ip' : Inode} (blocks : Blocks fs n k ip)
    (file : NewFile after (if ndirect < k then n + k + 1 else n + k) ip')
    (addrs : ip'.din.addrs = ip.din.addrs) (kept : after.disk (n + 48) = fs.disk (n + 48)) :
    Blocks after n k ip' := by
  have addr (index : Nat) : ip'.din.addr index = ip.din.addr index := by
    simp only [Dinode.addr, addrs]
  constructor
  · exact file
  · intro index inside beyond
    rw [addr]
    exact blocks.direct index inside beyond
  · rw [addr]
    exact blocks.indirect
  · intro index inside beyond
    rw [kept]
    exact blocks.entries index inside beyond

theorem Blocks.map_direct (blocks : Blocks fs n k ip) (past : 157 ≤ n) (small : n < 3900)
    (direct : k < ndirect) : ∃ after, bmap fs 0 k 1 = .ok (dblock (n + k) layoutSb, after) ∧
      Blocks after n (k + 1) { ip with din := ip.din.setAddr k (n + k + 36) } := by
  have count := ndirect_value
  have file := blocks.file
  rw [if_neg (by omega)] at file
  obtain ⟨filled, kept⟩ :=
    file.fill_empty (blocks.direct k direct le_rfl) (by omega) (by omega)
  refine ⟨setDin (afterTake fs (n + k)) 0 (ip.din.setAddr k (n + k + 36)), ?_, ?_⟩
  · rw [bmap, if_pos direct, filled, ok_bind, kept.entry, low_dblock (by omega)]
    rw [Dinode.addr_set_same _ _ _ (by omega) (by omega)]
  · constructor
    · rw [if_neg (by omega)]
      exact kept
    · intro index inside beyond
      rw [Dinode.addr_set_other _ _ _ _ (by omega)]
      exact blocks.direct index inside (by omega)
    · rw [Dinode.addr_set_other _ _ _ _ (by omega), blocks.indirect, if_neg (by omega),
        if_neg (by omega)]
    · intro index inside beyond
      have same : (setDin (afterTake fs (n + k)) 0 (ip.din.setAddr k (n + k + 36))).disk (n + 48) =
          fs.disk (n + 48) :=
        after_take_block file.layout (by omega) (file_block_ne_bblock n _ small (by omega))
      rw [same]
      exact blocks.entries index inside (by omega)

/-- The entry is filled while the indirect block is busy; the number taken is another. -/
theorem Blocks.map_entry {fs : Fs} {ip : Inode} {mapped : Fs} (past : 157 ≤ n) (small : n < 3900)
    (late : ndirect ≤ k) (early : k < 47) (filled : fillAddr fs 0 ndirect 1 = .ok mapped)
    (file : NewFile mapped (n + k + 1) ip) (indirect : ip.din.addr ndirect = n + 48)
    (entries : ∀ index, index < nindirect → k ≤ ndirect + index →
    readLE (mapped.disk (n + 48)) (sizeofUint * index) sizeofUint = 0) :
    ∃ after, bmap fs 0 k 1 = .ok (dblock (n + k + 1) layoutSb, after) ∧
    Blocks after n (k + 1) ip := by
  have total : nindirect = 128 := by decide
  have width : sizeofUint = 4 := rfl
  rcases fill_new_entry file past small (by omega) (by omega) (by omega) indirect
    (entries (k - ndirect) (by omega) (by omega)) with ⟨after, entered, kept, written⟩
  refine ⟨after, ?_, ?_⟩
  · rw [bmap, if_neg (by omega), if_pos (by omega), filled, ok_bind, entered, ok_bind, kept.entry,
      refAt, indirect, if_neg (by omega), written, read_le_write_same, low_dblock (by omega)]
    rw [show 256 ^ sizeofUint = 2 ^ 32 by decide, Nat.mod_eq_of_lt (by omega)]
  · constructor
    · rw [if_pos (by omega)]
      exact kept
    · intro index inside beyond
      omega
    · rw [if_pos (by omega)]
      exact indirect
    · intro index inside beyond
      rw [written, read_le_write_apart]
      · exact entries index inside (by omega)
      · rw [width]
        omega

theorem Blocks.map (blocks : Blocks fs n k ip) (past : 157 ≤ n) (small : n < 3900)
    (early : k < 47) : ∃ v after addrs, bmap fs 0 k 1 = .ok (dblock v layoutSb, after) ∧
      Blocks after n (k + 1) { ip with din := { ip.din with addrs := addrs } } ∧
      v < 4000 ∧ v ≠ n + 12 := by
  have count := ndirect_value
  by_cases direct : k < ndirect
  · obtain ⟨after, mapped, final⟩ := blocks.map_direct past small direct
    exact ⟨_, after, _, mapped, final, by omega, by omega⟩
  have file := blocks.file
  by_cases first : k = ndirect
  · rw [if_neg (by omega)] at file
    have absent := blocks.indirect
    rw [if_neg (by omega)] at absent
    obtain ⟨filled, kept⟩ := file.fill_empty absent (by omega) (by omega)
    have same : (setDin (afterTake fs (n + k)) 0 (ip.din.setAddr ndirect (n + k + 36))).disk
        (n + 48) = fs.disk (n + 48) :=
      after_take_block file.layout (by omega) (file_block_ne_bblock n _ small (by omega))
    have placed : (ip.din.setAddr ndirect (n + k + 36)).addr ndirect = n + 48 := by
      rw [Dinode.addr_set_same _ _ _ (by omega) (by omega)]
      omega
    rcases Blocks.map_entry past small (by omega) early filled kept placed
      (fun index inside beyond => same ▸ blocks.entries index inside beyond) with
      ⟨after, mapped, final⟩
    exact ⟨_, after, _, mapped, final, by omega, by omega⟩
  · rw [if_pos (by omega)] at file
    have placed := blocks.indirect
    rw [if_pos (by omega)] at placed
    have filled : fillAddr fs 0 ndirect 1 = .ok fs := by
      rw [fillAddr, file.entry, if_neg (by omega)]
    obtain ⟨after, mapped, final⟩ :=
      Blocks.map_entry past small (by omega) early filled file placed blocks.entries
    exact ⟨_, after, ip.din.addrs, mapped, final, by omega, by omega⟩

theorem Blocks.store (blocks : Blocks fs n k ip) {v : Nat} (small : v < 4000) (other : v ≠ n + 12)
    (off : Nat) (bytes : List Byte) :
    ∃ after, storeBytes fs (dblock v layoutSb) off bytes = .ok after ∧ Blocks after n k ip := by
  have place := low_dblock (show v < 4060 by omega)
  have onDisk : dblock v layoutSb < fssize blockgroups := by
    rw [place, fssize_eq, blockgroups]
    omega
  refine ⟨logWrite fs (dblock v layoutSb) (copyInto (fs.disk (dblock v layoutSb)) off bytes),
    ?_, ?_⟩
  · rw [storeBytes, bread_none onDisk, ok_bind]
  · refine blocks.frame (blocks.file.write _ _ (by omega) ?_) rfl ?_
    · exact fun u same => dblock_ne_bblock v u same.symm
    · exact log_write_other _ _ _ _ (by omega)

theorem Blocks.grow (blocks : Blocks fs n k ip) (past : 157 ≤ n) (small : n < 3900) (off : Nat) :
    ∃ after, growSize fs 0 off = .ok after ∧
      Blocks after n k { ip with din := { ip.din with size := BitVec.ofNat 32 off } } := by
  have file := blocks.file
  obtain ⟨after, updated, kept⟩ := file.update_din { ip.din with size := BitVec.ofNat 32 off }
  refine ⟨after, ?_, blocks.frame kept rfl ?_⟩
  · rw [growSize, file.entry]
    exact updated
  · simp only [iupdate, bind_ok] at updated
    obtain ⟨buf, -, result⟩ := updated
    cases result
    refine log_write_other _ _ _ _ ?_
    have layout : (setDin fs 0 { ip.din with size := BitVec.ofNat 32 off }).sb = layoutSb :=
      file.layout
    rw [layout, iblock_eq]
    omega

structure Written (fs : Fs) (n k : Nat) (ip : Inode) : Prop where
  blocks : Blocks fs n k ip
  held : locked ip = true
  typed : ip.din.type = tFile
  size : ip.din.size = BitVec.ofNat 32 (k * bsize)

theorem Written.append (written : Written fs n k ip) (past : 157 ≤ n) (small : n < 3900)
    (early : k < 47) (device : BitVec 16 → Option Int) {bytes : List Byte}
    (whole : bytes.length = bsize) :
    ∃ after ip', BusyIndirect.append device 0 fs (bytes, 1) = some after ∧
    Written after n (k + 1) ip' := by
  have width : bsize = 512 := rfl
  have limit : maxfile * bsize = 71680 := by decide
  have entry := written.blocks.file.entry
  have size : ip.din.size.toNat = k * bsize := by
    rw [written.size, BitVec.toNat_ofNat, Nat.mod_eq_of_lt (by rw [width]; omega)]
  obtain ⟨v, mapped, addrs, first, blocks, low, other⟩ := written.blocks.map past small early
  obtain ⟨stored, second, stores⟩ := blocks.store low other 0 bytes
  obtain ⟨grown, third, final⟩ := stores.grow past small (k * bsize + bsize)
  have loop : writeLoop fs 0 bytes (k * bsize) 1 = .ok (k * bsize + bsize, stored) := by
    have some : bytes ≠ [] := List.length_pos_iff.mp (by omega)
    rw [writeLoop, if_neg some, Nat.mul_div_cancel k (by decide), Nat.mul_mod_left,
      first]
    simp only [ok_bind]
    rw [show min bytes.length (bsize - 0) = bytes.length by omega, List.take_length, second,
      ok_bind, List.drop_length, writeLoop, if_pos rfl, whole]
  have wrote : writei fs device 0 bytes (k * bsize) 1 = .ok (bytes.length, grown) := by
    have file : ip.din.type ≠ tDev := by
      rw [written.typed]
      decide
    have fits : ¬ (ip.din.size.toNat < k * bsize ∨ 2 ^ 32 ≤ k * bsize + bytes.length) := by
      rw [size, whole, width]
      omega
    have inFile : ¬ maxfile * bsize < k * bsize + bytes.length := by
      rw [limit, whole, width]
      omega
    have some : bytes ≠ [] := List.length_pos_iff.mp (by omega)
    have still : (stored.icache 0).din.size.toNat = k * bsize := by
      rw [stores.file.entry]
      exact size
    simp only [writei, entry, if_neg file, if_neg fits, if_neg inFile, loop, ok_bind, still]
    rw [if_pos ⟨some, by omega⟩, third, ok_bind]
  refine ⟨grown, _, ?_, ⟨final, ?_, ?_, ?_⟩⟩
  · simp only [BusyIndirect.append, entry, written.held, ↓reduceIte, size, wrote]
    rfl
  · simpa only [locked] using written.held
  · simpa only using written.typed
  · rw [Nat.succ_mul]

theorem Written.grow_to {start : Fs} {ip : Inode} (written : Written start n 0 ip) (past : 157 ≤ n)
    (small : n < 3900) (device : BitVec 16 → Option Int) (k : Nat) (early : k ≤ 47) :
    ∃ fs ip', Reaches (BusyIndirect.append device 0) (fun _ _ => True) start fs ∧
    Written fs n k ip' := by
  induction k with
  | zero => exact ⟨start, ip, .start, written⟩
  | succ k ih =>
    obtain ⟨fs, ip', reached, sofar⟩ := ih (by omega)
    rcases sofar.append past small (by omega) device
      (show (List.replicate bsize (0 : Byte)).length = bsize from List.length_replicate) with
      ⟨after, last, appended, final⟩
    exact ⟨after, last, reached.next _ trivial appended, final⟩

theorem Written.waits (written : Written fs n 47 ip) (small : n < 3900) :
    WaitsForItself fs 0 47 1 := by
  have count := ndirect_value
  have width := bpb_value
  have file := written.blocks.file
  have placed := written.blocks.indirect
  rw [if_pos (by omega)] at file placed
  refine ⟨by omega, by decide, fs, ?_, ?_, ?_⟩
  · rw [fillAddr, file.entry, if_neg (by omega)]
  · rw [file.entry, refAt, placed]
    split
    · rfl
    · exact written.blocks.entries _ (by decide) (by omega)
  · rw [file.entry, placed]
    exact file.first_free (by omega)

theorem new_file_written : ∃ image opened ip, Mkfs.mkfs [] = some image ∧
    run next (boot image.sector) [.ialloc tFile 1, .ilock 0] = some opened ∧
    Fresh opened 0 ∧ Written opened image.freeblock 0 ip ∧
    157 ≤ image.freeblock ∧ image.freeblock < 3900 := by
  obtain ⟨image, accepted, few⟩ := MkfsInodes.mkfs_accepts_empty_files [] (by decide) (by simp)
  rw [List.length_nil] at few
  have lower := (MkfsInodes.mkfs_bitmap accepted).2.1
  obtain ⟨created, ip, allocated, file, ref, busy, valid, loaded, -⟩ := boot_new_file accepted
  obtain ⟨opened, locking, file⟩ := file.lock ref busy valid (by rw [loaded]; decide)
  rw [loaded] at file
  have held (d : Dinode) : locked { ip with busy := true, valid := true, din := d } = true := by
    simp [locked, ref]
  have accounted : Accounted opened :=
    step_accounted (step_accounted (boot_accounted accepted) (by trivial) allocated)
      (by trivial) locking
  have blank : opened.disk (image.freeblock + 48) = blankBlock := by
    have width := bpb_value
    rw [show image.freeblock + 48 = dblock (image.freeblock + 12) layoutSb by
      rw [low_dblock (by omega)]]
    refine accounted.owned.blank _ (by rw [ndatablocks_value]; omega) ?_
    rw [file.bits _ (by omega)]
    omega
  refine ⟨image, opened, _, accepted, ?_, ?_, ⟨⟨file, ?_, ?_, ?_⟩, held _, rfl, rfl⟩, lower,
    by omega⟩
  · simp only [run, next, allocated, locking, Except.toOption, Option.bind_some]
  · constructor
    · exact ⟨file.layout, by rw [file.entry]; exact held _⟩
    · rw [file.entry]
      exact Dinode.blank_addr
    · rw [file.entry]
      rfl
  · intro index _ _
    exact Dinode.blank_addr index
  · exact Dinode.blank_addr ndirect
  · intro index _ _
    rw [blank]
    exact read_blank_block _ _

/-- Writing the first block of a new file does not wait. -/
theorem new_file_never_waits : ∃ image opened, Mkfs.mkfs [] = some image ∧
      run next (boot image.sector) [.ialloc tFile 1, .ilock 0] = some opened ∧
      Fresh opened 0 ∧ bmap opened 0 0 1 ≠ .error .asleep := by
  obtain ⟨image, opened, ip, accepted, ran, fresh, -⟩ := new_file_written
  refine ⟨image, opened, accepted, ran, fresh, ?_⟩
  refine (bmap_never_waits_iff (fun _ => none) fresh Reaches.start 0).mpr ?_
  rintro ⟨beyond, -⟩
  exact absurd beyond (by decide)

/-- Writing block 47 of a new file sleeps for ever. -/
theorem large_file_waits_for_itself : ∃ image opened fs, Mkfs.mkfs [] = some image ∧
      run next (boot image.sector) [.ialloc tFile 1, .ilock 0] = some opened ∧
      Fresh opened 0 ∧ Reaches (append (fun _ => none) 0) (fun _ _ => True) opened fs ∧
      47 < maxfile ∧ bmap fs 0 47 1 = .error .asleep := by
  obtain ⟨image, opened, ip, accepted, ran, fresh, start, lower, upper⟩ := new_file_written
  obtain ⟨fs, ip', reached, written⟩ := start.grow_to lower upper (fun _ => none) 47 (by omega)
  exact ⟨image, opened, fs, accepted, ran, fresh, reached, by decide,
    (bmap_asleep_iff (fresh.placed reached) 47).mpr (written.waits upper)⟩

end NewFiles
end Xv6Hacks.BusyIndirect
