import Xv6Hacks.BlockFrames
import Xv6Hacks.Traces

/-!
# The blocks that a transaction of `filewrite` logs

The functions on the way from `filewrite` to `log_write`, once more, with the numbers of the
blocks that they pass to `log_write`. Without these numbers they are the functions of
`KernelFs`. `filewrite` cuts what it writes into parts of at most `maxChunk` bytes, one
transaction each, and a transaction may log `maxopblocks` different blocks.
-/

namespace Xv6Hacks.WriteTransactions

open BlockAccounting BlockAllocation BlockGroupLayout BlockOwnership ByteBuffers DiskFormat Function
open GuardedRuns KernelCalls Traces Traces.Traced
open KernelFs
open BlockFrames (emptyCache)

abbrev Op (α : Type) : Type := Traced Nat Stop α

def logWrite (fs : Fs) (blockno : Nat) (data : Buffer) : Op Fs :=
  emit blockno (KernelFs.logWrite fs blockno data)

def bread (fs : Fs) (held : Option Nat) (blockno : Nat) : Op Buffer :=
  lift (KernelFs.bread fs held blockno)

def bzero (fs : Fs) (held : Option Nat) (bno : Nat) : Op Fs := do
  let _ ← bread fs held bno
  logWrite fs bno blankBlock

def takeBlock (fs : Fs) (held : Option Nat) (v : Nat) : Op (Nat × Fs) := do
  let buf ← bread fs held (bblock v fs.sb)
  let fs ← logWrite fs (bblock v fs.sb) (setBit buf (v % bpb))
  let fs ← bzero fs held v
  pure (dblock v fs.sb, fs)

def balloc (fs : Fs) (held : Option Nat) (cwd : Nat) : Op (Nat × Fs) := do
  match ← lift (scanBitmaps fs held (bgroup cwd fs.sb * bpb) (bmapHead cwd fs.sb)) with
  | some v => takeBlock fs held v
  | none =>
    match ← lift (scanBitmaps fs held 0 0) with
    | some v => takeBlock fs held v
    | none => lift (.error .outOfBlocks)

def fillAddr (fs : Fs) (slot : CacheSlot) (index cwd : Nat) : Op Fs := do
  if (fs.icache slot).din.addr index = 0 then
    let (addr, fs) ← balloc fs none cwd
    pure (setDin fs slot ((fs.icache slot).din.setAddr index addr))
  else pure fs

def fillEntry (fs : Fs) (slot : CacheSlot) (index cwd : Nat) : Op Fs := do
  let indirect := (fs.icache slot).din.addr ndirect
  let buf ← bread fs none indirect
  if readLE buf (sizeofUint * index) sizeofUint = 0 then
    let (addr, fs) ← balloc fs (some indirect) cwd
    logWrite fs indirect (writeLE (fs.disk indirect) (sizeofUint * index) sizeofUint addr)
  else pure fs

def bmap (fs : Fs) (slot : CacheSlot) (bn cwd : Nat) : Op (Nat × Fs) := do
  if bn < ndirect then
    let fs ← fillAddr fs slot bn cwd
    pure ((fs.icache slot).din.addr bn, fs)
  else if bn - ndirect < nindirect then
    let fs ← fillAddr fs slot ndirect cwd
    let fs ← fillEntry fs slot (bn - ndirect) cwd
    pure (refAt fs.disk (fs.icache slot).din (.entry (bn - ndirect)), fs)
  else lift (.error .outOfRange)

def storeBytes (fs : Fs) (blockno off : Nat) (bytes : List Byte) : Op Fs := do
  let buf ← bread fs none blockno
  logWrite fs blockno (copyInto buf off bytes)

def writeLoop (fs : Fs) (slot : CacheSlot) (src : List Byte) (off cwd : Nat) : Op (Nat × Fs) :=
  if src = [] then pure (off, fs)
  else do
    let (addr, fs) ← bmap fs slot (off / bsize) cwd
    let m := min src.length (bsize - off % bsize)
    let fs ← storeBytes fs addr (off % bsize) (src.take m)
    writeLoop fs slot (src.drop m) (off + m) cwd
termination_by src.length
decreasing_by
  have room := in_block_room off
  have nonempty := List.length_pos_iff.mpr ‹src ≠ []›
  simp only [List.length_drop]
  omega

def iupdate (fs : Fs) (slot : CacheSlot) : Op Fs := do
  let ip := fs.icache slot
  let buf ← bread fs none (iblock ip.inum fs.sb)
  logWrite fs (iblock ip.inum fs.sb) (writeDinode buf (dinodeoffset ip.inum fs.sb) ip.din)

def growSize (fs : Fs) (slot : CacheSlot) (off : Nat) : Op Fs :=
  let din := (fs.icache slot).din
  iupdate (setDin fs slot { din with size := BitVec.ofNat 32 off }) slot

def writei (fs : Fs) (device : BitVec 16 → Option Int) (slot : CacheSlot) (src : List Byte)
    (off cwd : Nat) : Op (Int × Fs) := do
  let din := (fs.icache slot).din
  if din.type = tDev then pure ((device din.major).getD (-1), fs)
  else if din.size.toNat < off ∨ 2 ^ 32 ≤ off + src.length then pure (-1, fs)
  else if maxfile * bsize < off + src.length then pure (-1, fs)
  else
    let (last, fs) ← writeLoop fs slot src off cwd
    if src ≠ [] ∧ (fs.icache slot).din.size.toNat < last then
      let fs ← growSize fs slot last
      pure (src.length, fs)
    else pure (src.length, fs)

/-- What `filewrite` does between `begin_op` and `end_op`. -/
def bracket (fs : Fs) (device : BitVec 16 → Option Int) (slot : CacheSlot) (chunk : List Byte)
    (off cwd : Nat) : Op (Int × Fs) := do
  let fs ← lift (KernelFs.ilock fs slot)
  let (r, fs) ← writei fs device slot chunk off cwd
  let fs ← lift (KernelFs.iunlock fs slot)
  pure (r, fs)

/-- The blocks logged by each transaction of `filewrite`. The loop ends with an error of
`writei`, and a short write is a panic. -/
def filewrite (fs : Fs) (device : BitVec 16 → Option Int) (slot : CacheSlot) (bytes : List Byte)
    (off cwd : Nat) : List (List Nat) :=
  if bytes = [] then []
  else
    let chunk := bytes.take maxChunk
    let op := bracket fs device slot chunk off cwd
    op.trace ::
      match op.outcome with
      | .ok (r, fs) =>
        if r = chunk.length then
          filewrite fs device slot (bytes.drop maxChunk) (off + chunk.length) cwd
        else []
      | .error _ => []
termination_by bytes.length
decreasing_by
  have nonempty := List.length_pos_iff.mpr ‹bytes ≠ []›
  have positive : 0 < maxChunk := by decide
  simp only [List.length_drop]
  omega

section Erasure
variable (fs : Fs) (slot : CacheSlot) (cwd : Nat)

theorem take_block_outcome (held : Option Nat) (v : Nat) :
    (takeBlock fs held v).outcome = KernelFs.takeBlock fs held v := by
  simp only [takeBlock, bzero, bread, logWrite, outcome_bind, outcome_lift, outcome_emit,
    outcome_pure]
  rfl

theorem balloc_outcome (held : Option Nat) :
    (balloc fs held cwd).outcome = KernelFs.balloc fs held cwd := by
  rw [balloc, KernelFs.balloc, outcome_bind, outcome_lift]
  congr 1
  funext first
  cases first with
  | some v => exact take_block_outcome fs held v
  | none =>
    simp only [outcome_bind, outcome_lift]
    congr 1
    funext second
    cases second with
    | some v => exact take_block_outcome fs held v
    | none => rfl

theorem fill_addr_outcome (index : Nat) :
    (fillAddr fs slot index cwd).outcome = KernelFs.fillAddr fs slot index cwd := by
  rw [fillAddr, KernelFs.fillAddr]
  split
  · rw [outcome_bind, balloc_outcome]
    rfl
  · rfl

theorem fill_entry_outcome (index : Nat) :
    (fillEntry fs slot index cwd).outcome = KernelFs.fillEntry fs slot index cwd := by
  rw [fillEntry, KernelFs.fillEntry]
  simp only [outcome_bind, bread, outcome_lift]
  congr 1
  funext buf
  split
  · rw [outcome_bind, balloc_outcome]
    rfl
  · rfl

theorem bmap_outcome (bn : Nat) : (bmap fs slot bn cwd).outcome = KernelFs.bmap fs slot bn cwd := by
  rw [bmap, KernelFs.bmap]
  split
  · rw [outcome_bind, fill_addr_outcome]
    rfl
  · split
    · simp only [outcome_bind, fill_addr_outcome, fill_entry_outcome, outcome_pure]
    · rfl

theorem store_bytes_outcome (blockno off : Nat) (bytes : List Byte) :
    (storeBytes fs blockno off bytes).outcome = KernelFs.storeBytes fs blockno off bytes := by
  simp only [storeBytes, bread, logWrite, outcome_bind, outcome_lift, outcome_emit]
  rfl

theorem write_loop_outcome (src : List Byte) (off : Nat) :
    (writeLoop fs slot src off cwd).outcome = KernelFs.writeLoop fs slot src off cwd := by
  induction length : src.length using Nat.strong_induction_on generalizing src off fs with
  | _ count ih =>
    rw [writeLoop, KernelFs.writeLoop]
    split
    · rfl
    · rename_i more
      have room := in_block_room off
      have nonempty := List.length_pos_iff.mpr more
      have shorter : (src.drop (min src.length (bsize - off % bsize))).length < count := by
        rw [List.length_drop]
        omega
      simp only [outcome_bind, bmap_outcome, store_bytes_outcome, ih _ shorter _ _ _ rfl]

theorem grow_size_outcome (off : Nat) :
    (growSize fs slot off).outcome = KernelFs.growSize fs slot off := by
  simp only [growSize, iupdate, bread, logWrite, outcome_bind, outcome_lift, outcome_emit]
  rfl

theorem writei_outcome (device : BitVec 16 → Option Int) (src : List Byte) (off : Nat) :
    (writei fs device slot src off cwd).outcome = KernelFs.writei fs device slot src off cwd := by
  rw [writei, KernelFs.writei]
  split
  · rfl
  split
  · rfl
  split
  · rfl
  rw [outcome_bind, write_loop_outcome]
  congr 1
  funext result
  dsimp only
  split
  · rw [outcome_bind, grow_size_outcome]
    rfl
  · rfl

end Erasure

/-- What the allocation of a missing indirect block may log. -/
def credit (d : Dinode) : Nat := if d.addr ndirect = 0 then 2 else 0

def indirectOf (d : Dinode) : Finset Nat := if d.addr ndirect = 0 then ∅ else {d.addr ndirect}

/-- Up to `bound` blocks besides the indirect block. -/
def Paid (d : Dinode) (logged : List Nat) (bound : Nat) : Prop :=
  ∃ paid indirect : Finset Nat, logged.toFinset ⊆ paid ∪ indirect ∧ paid.card ≤ bound ∧
    indirect.card ≤ 1 ∧ indirectOf d ⊆ indirect

theorem indirect_of_card (d : Dinode) : (indirectOf d).card ≤ 1 := by
  rw [indirectOf]
  split
  · simp
  · simp

theorem Paid.mono {d : Dinode} {logged : List Nat} {bound more : Nat} (within : Paid d logged bound)
    (weaker : bound ≤ more) : Paid d logged more := by
  obtain ⟨paid, indirect, covered, few, one, known⟩ := within
  exact ⟨paid, indirect, covered, few.trans weaker, one, known⟩

section Bound
variable {fs : Fs} {slot : CacheSlot} {cwd : Nat}

theorem take_block_trace (held : Option Nat) (v : Nat) :
    (takeBlock fs held v).trace.length ≤ 2 := by
  refine trace_bind_length _ 0 2 le_rfl fun buf _ => ?_
  refine trace_bind_length _ 1 1 le_rfl fun marked _ => ?_
  refine trace_bind_length _ 1 0 ?_ fun cleared _ => Nat.le_refl 0
  exact trace_bind_length _ 0 1 le_rfl fun _ _ => Nat.le_refl 1

theorem balloc_trace (held : Option Nat) : (balloc fs held cwd).trace.length ≤ 2 := by
  refine trace_bind_length _ 0 2 le_rfl fun first _ => ?_
  cases first with
  | some v => exact take_block_trace held v
  | none =>
    refine trace_bind_length _ 0 2 le_rfl fun second _ => ?_
    cases second with
    | some v => exact take_block_trace held v
    | none => exact Nat.zero_le 2

theorem fill_addr_trace (fs : Fs) (slot : CacheSlot) (index cwd : Nat) :
    (fillAddr fs slot index cwd).trace.toFinset.card ≤
      if (fs.icache slot).din.addr index = 0 then 2 else 0 := by
  refine (List.toFinset_card_le _).trans ?_
  rw [fillAddr]
  split
  · exact trace_bind_length _ 2 0 (balloc_trace none) fun _ _ => Nat.le_refl 0
  · exact Nat.le_refl 0

theorem fill_entry_trace (fs : Fs) (slot : CacheSlot) (index cwd : Nat) :
    ∃ paid : Finset Nat, paid.card ≤ 2 ∧ (fillEntry fs slot index cwd).trace.toFinset ⊆
    paid ∪ {(fs.icache slot).din.addr ndirect} := by
  rw [fillEntry]
  cases read : (bread fs none ((fs.icache slot).din.addr ndirect)).outcome with
  | error stop =>
    rw [trace_bind_error _ read]
    exact ⟨∅, by simp, by simp [bread]⟩
  | ok buf =>
    rw [trace_bind_ok _ read]
    simp only [bread, trace_lift, List.nil_append]
    split
    · refine ⟨(balloc fs (some ((fs.icache slot).din.addr ndirect)) cwd).trace.toFinset,
        (List.toFinset_card_le _).trans (balloc_trace _), ?_⟩
      cases allocated : (balloc fs (some ((fs.icache slot).din.addr ndirect)) cwd).outcome with
      | error stop =>
        rw [trace_bind_error _ allocated]
        exact Finset.subset_union_left
      | ok result =>
        rw [trace_bind_ok _ allocated, List.toFinset_append]
        simp [logWrite]
    · exact ⟨∅, by simp, by simp⟩

variable {after : Fs}

theorem fill_addr_after {index : Nat} (layout : fs.sb = layoutSb) (inside : index < ndirect + 1)
    (filled : (fillAddr fs slot index cwd).outcome = .ok after) :
    after.sb = layoutSb ∧ (after.icache slot).din.addr index ≠ 0 ∧
    ∀ other, other ≠ index ∨ (fs.icache slot).din.addr index ≠ 0 →
    (after.icache slot).din.addr other = (fs.icache slot).din.addr other := by
  rw [fill_addr_outcome] at filled
  rcases fill_addr_ok layout filled with ⟨present, rfl⟩ | ⟨absent, v, first, rfl⟩
  · exact ⟨layout, present, fun _ _ => rfl⟩
  · rw [KernelFs.set_din_same]
    refine ⟨layout, ?_, ?_⟩
    · rw [Dinode.addr_set_same _ _ _ inside (first_free_uint layout first), dblock_eq]
      omega
    · rintro other (different | present)
      · exact Dinode.addr_set_other _ _ _ _ different
      · exact absurd absent present

theorem fill_entry_after {index : Nat} (layout : fs.sb = layoutSb)
    (filled : (fillEntry fs slot index cwd).outcome = .ok after) :
    after.sb = layoutSb ∧ after.icache = fs.icache := by
  rw [fill_entry_outcome] at filled
  rcases fill_entry_ok layout filled with ⟨-, rfl⟩ | ⟨-, v, -, rfl⟩
  · exact ⟨layout, rfl⟩
  · exact ⟨layout, rfl⟩

theorem indirect_of_same {d e : Dinode} (same : e.addr ndirect = d.addr ndirect) :
    indirectOf e = indirectOf d ∧ credit e = credit d := by
  rw [indirectOf, indirectOf, credit, credit, same]
  exact ⟨rfl, rfl⟩

theorem indirect_of_present {d : Dinode} (present : d.addr ndirect ≠ 0) :
    indirectOf d = {d.addr ndirect} ∧ credit d = 0 := by
  rw [indirectOf, credit, if_neg present, if_neg present]
  exact ⟨rfl, rfl⟩

theorem bmap_direct_trace {bn : Nat} (direct : bn < ndirect) :
    (bmap fs slot bn cwd).trace = (fillAddr fs slot bn cwd).trace := by
  rw [bmap, if_pos direct]
  exact trace_bind_silent _ fun _ => rfl

theorem fill_direct_trace (fs : Fs) (slot : CacheSlot) (bn cwd : Nat) :
    (fillAddr fs slot bn cwd).trace.toFinset.card ≤ 2 := by
  refine (fill_addr_trace fs slot bn cwd).trans ?_
  split
  · exact Nat.le_refl 2
  · exact Nat.zero_le 2

theorem bmap_entry_paid {middle : Fs} {bn : Nat} (layout : fs.sb = layoutSb)
    (beyond : ¬ bn < ndirect) (inside : bn - ndirect < nindirect)
    (first : (fillAddr fs slot ndirect cwd).outcome = .ok middle) :
    indirectOf (fs.icache slot).din ⊆ indirectOf (middle.icache slot).din ∧ ∃ paid : Finset Nat,
    (bmap fs slot bn cwd).trace.toFinset ⊆ paid ∪ indirectOf (middle.icache slot).din ∧
    paid.card + credit (middle.icache slot).din ≤ credit (fs.icache slot).din + 2 := by
  obtain ⟨-, present, others⟩ := fill_addr_after layout ndirect.lt_succ_self first
  obtain ⟨paid, two, covered⟩ := fill_entry_trace middle slot (bn - ndirect) cwd
  obtain ⟨own, spent⟩ := indirect_of_present present
  rw [own, spent]
  refine ⟨?_, (fillAddr fs slot ndirect cwd).trace.toFinset ∪ paid, ?_, ?_⟩
  · rw [indirectOf]
    split
    · exact Finset.empty_subset _
    · rename_i had
      rw [others ndirect (.inr had)]
  · rw [bmap, if_neg beyond, if_pos inside, trace_bind_ok _ first,
      trace_bind_silent _ fun _ => rfl, List.toFinset_append, Finset.union_assoc]
    exact Finset.union_subset_union_right covered
  · have few := fill_addr_trace fs slot ndirect cwd
    have both := Finset.card_union_le (fillAddr fs slot ndirect cwd).trace.toFinset paid
    rw [credit]
    omega

theorem bmap_paid (layout : fs.sb = layoutSb) (bn : Nat) :
    Paid (fs.icache slot).din (bmap fs slot bn cwd).trace (credit (fs.icache slot).din + 2) := by
  by_cases direct : bn < ndirect
  · rw [bmap_direct_trace direct]
    have few := fill_direct_trace fs slot bn cwd
    exact ⟨_, _, Finset.subset_union_left, by omega, indirect_of_card _, subset_rfl⟩
  by_cases inside : bn - ndirect < nindirect
  · cases first : (fillAddr fs slot ndirect cwd).outcome with
    | ok middle =>
      obtain ⟨known, paid, covered, few⟩ := bmap_entry_paid layout direct inside first
      exact ⟨paid, _, covered, by omega, indirect_of_card _, known⟩
    | error stop =>
      have few := fill_direct_trace fs slot ndirect cwd
      rw [bmap, if_neg direct, if_pos inside, trace_bind_error _ first]
      exact ⟨_, _, Finset.subset_union_left, by omega, indirect_of_card _, subset_rfl⟩
  · rw [bmap, if_neg direct, if_neg inside]
    exact ⟨∅, _, Finset.empty_subset _, by simp, indirect_of_card _, subset_rfl⟩

theorem bmap_spends {bn p : Nat} (layout : fs.sb = layoutSb)
    (mapped : (bmap fs slot bn cwd).outcome = .ok (p, after)) : after.sb = layoutSb ∧
    indirectOf (fs.icache slot).din ⊆ indirectOf (after.icache slot).din ∧ ∃ paid : Finset Nat,
    (bmap fs slot bn cwd).trace.toFinset ⊆ paid ∪ indirectOf (after.icache slot).din ∧
    paid.card + credit (after.icache slot).din ≤ credit (fs.icache slot).din + 2 := by
  by_cases direct : bn < ndirect
  · rw [bmap_direct_trace direct]
    rw [bmap, if_pos direct, outcome_bind, bind_ok] at mapped
    obtain ⟨filled, first, result⟩ := mapped
    cases result
    obtain ⟨still, -, others⟩ := fill_addr_after layout (by omega) first
    obtain ⟨sameBlock, sameCredit⟩ := indirect_of_same (others ndirect (.inl (by omega)))
    have few := fill_direct_trace fs slot bn cwd
    exact ⟨still, by rw [sameBlock], _, Finset.subset_union_left, by omega⟩
  by_cases inside : bn - ndirect < nindirect
  · have returned := mapped
    rw [bmap, if_neg direct, if_pos inside] at returned
    simp only [outcome_bind, bind_ok] at returned
    obtain ⟨middle, first, filled, second, result⟩ := returned
    cases result
    have still := (fill_addr_after layout ndirect.lt_succ_self first).1
    obtain ⟨final, cache⟩ := fill_entry_after still second
    rw [cache]
    exact ⟨final, bmap_entry_paid layout direct inside first⟩
  · rw [bmap, if_neg direct, if_neg inside] at mapped
    contradiction

/-- The blocks of a file that `len` bytes from `off` on lie in. -/
def touched (off len : Nat) : Nat :=
  if len = 0 then 0 else (off % bsize + len + (bsize - 1)) / bsize

theorem touched_step {off len : Nat} (more : len ≠ 0) :
    touched (off + min len (bsize - off % bsize)) (len - min len (bsize - off % bsize)) + 1 =
    touched off len := by
  have width : bsize = 512 := rfl
  simp only [touched, width, if_neg more]
  split
  · omega
  · omega

theorem store_bytes_trace (blockno off : Nat) (bytes : List Byte) :
    (storeBytes fs blockno off bytes).trace.toFinset.card ≤ 1 :=
  Nat.le_trans (List.toFinset_card_le _)
    (trace_bind_length _ 0 1 le_rfl fun _ _ => Nat.le_refl 1)

theorem Paid.round {fs after : Fs} {mapped stored rest : List Nat} {more : Nat}
    (known : indirectOf (fs.icache slot).din ⊆ indirectOf (after.icache slot).din)
    {paid : Finset Nat} (covered : mapped.toFinset ⊆ paid ∪ indirectOf (after.icache slot).din)
    (spent : paid.card + credit (after.icache slot).din ≤ credit (fs.icache slot).din + 2)
    (one : stored.toFinset.card ≤ 1)
    (later : Paid (after.icache slot).din rest (credit (after.icache slot).din + 3 * more)) :
    Paid (fs.icache slot).din (mapped ++ (stored ++ rest))
    (credit (fs.icache slot).din + 3 * (more + 1)) := by
  obtain ⟨restPaid, indirect, restCovered, few, single, within⟩ := later
  refine ⟨paid ∪ (stored.toFinset ∪ restPaid), indirect, ?_, ?_, single, known.trans within⟩
  · intro block logged
    simp only [List.toFinset_append, Finset.mem_union] at logged ⊢
    rcases logged with here | here | here
    · rcases Finset.mem_union.mp (covered here) with new | old
      · exact .inl (.inl new)
      · exact .inr (within old)
    · exact .inl (.inr (.inl here))
    · rcases Finset.mem_union.mp (restCovered here) with new | old
      · exact .inl (.inr (.inr new))
      · exact .inr old
  · have outer := Finset.card_union_le paid (stored.toFinset ∪ restPaid)
    have inner := Finset.card_union_le stored.toFinset restPaid
    omega

theorem paid_nothing (d : Dinode) (bound : Nat) : Paid d [] bound :=
  ⟨∅, _, Finset.empty_subset _, by simp, indirect_of_card d, subset_rfl⟩

theorem write_loop_paid (fs : Fs) (layout : fs.sb = layoutSb) (src : List Byte) (off : Nat) :
    Paid (fs.icache slot).din (writeLoop fs slot src off cwd).trace
    (credit (fs.icache slot).din + 3 * touched off src.length) := by
  -- The measure of the loop is what is left to write.
  induction length : src.length using Nat.strong_induction_on generalizing src off fs with
  | _ count ih =>
    subst length
    rw [writeLoop]
    split
    · exact paid_nothing _ _
    · rename_i more
      have nonempty := List.length_pos_iff.mpr more
      have room := in_block_room off
      rw [← @touched_step off src.length (by omega)]
      cases first : (bmap fs slot (off / bsize) cwd).outcome with
      | error stop =>
        rw [trace_bind_error _ first]
        exact (bmap_paid layout _).mono (by omega)
      | ok result =>
        obtain ⟨still, known, paid, covered, spent⟩ := bmap_spends layout first
        have one := @store_bytes_trace result.2 result.1 (off % bsize)
          (src.take (min src.length (bsize - off % bsize)))
        rw [trace_bind_ok _ first]
        cases second : (storeBytes result.2 result.1 (off % bsize)
            (src.take (min src.length (bsize - off % bsize)))).outcome with
        | error stop =>
          rw [trace_bind_error _ second, ← List.append_nil (storeBytes result.2 result.1 _ _).trace]
          exact Paid.round known covered spent one (paid_nothing _ _)
        | ok stored =>
          rw [trace_bind_ok _ second]
          rw [store_bytes_outcome] at second
          obtain rfl := store_bytes_ok second
          refine Paid.round known covered spent one ?_
          exact ih _ (by omega) (KernelFs.logWrite _ _ _) still _ _ List.length_drop

theorem writei_trace (device : BitVec 16 → Option Int) (layout : fs.sb = layoutSb) (src : List Byte)
    (off : Nat) :
    (writei fs device slot src off cwd).trace.toFinset.card ≤ 4 + 3 * touched off src.length := by
  have most : credit (fs.icache slot).din ≤ 2 := by
    rw [credit]
    split <;> omega
  obtain ⟨paid, indirect, covered, few, one, -⟩ := @write_loop_paid slot cwd fs layout src off
  have loop := (Finset.card_le_card covered).trans (Finset.card_union_le paid indirect)
  rw [writei]
  split
  · simp
  split
  · simp
  split
  · simp
  refine (trace_bind_card _ 1 fun result => ?_).trans (by omega)
  dsimp only
  split
  · rw [trace_bind_silent _ fun _ => rfl]
    exact trace_bind_length _ 0 1 le_rfl fun _ _ => Nat.le_refl 1
  · exact Nat.zero_le 1

theorem ilock_sb (locked : KernelFs.ilock fs slot = .ok after) : after.sb = fs.sb := by
  obtain ⟨-, ⟨-, rfl⟩ | ⟨-, -, -, rfl⟩⟩ := ilock_ok locked
  · rfl
  · rfl

theorem bracket_trace (device : BitVec 16 → Option Int) (layout : fs.sb = layoutSb)
    (chunk : List Byte) (off : Nat) : (bracket fs device slot chunk off cwd).trace.toFinset.card ≤
    4 + 3 * touched off chunk.length := by
  rw [bracket]
  cases locking : (lift (KernelFs.ilock fs slot) : Op Fs).outcome with
  | error stop =>
    rw [trace_bind_error _ locking]
    exact Nat.zero_le _
  | ok locked =>
    rw [trace_bind_ok _ locking, trace_lift, List.nil_append]
    rw [trace_bind_silent _ fun _ => trace_bind_silent _ fun _ => rfl]
    exact writei_trace device ((ilock_sb locking).trans layout) chunk off

end Bound

/-- Whatever the state of the disk and of the inode, and whatever the offset, no transaction
of a `filewrite` of `n` bytes logs more than `maxopblocks` different blocks. -/
def Fits (n : Nat) : Prop :=
  ∀ (fs : Fs) (device : BitVec 16 → Option Int) (slot : CacheSlot) (bytes : List Byte)
    (off cwd : Nat), fs.sb = layoutSb → bytes.length = n →
      ∀ logged ∈ filewrite fs device slot bytes off cwd, logged.toFinset.card ≤ maxopblocks

theorem fits_of_few {n : Nat} (few : n ≤ 513) : Fits n := by
  intro fs device slot bytes off cwd layout length logged listed
  have chunk : maxChunk = 6656 := by decide
  have whole : bytes.take maxChunk = bytes := List.take_of_length_le (by omega)
  have nothing : bytes.drop maxChunk = [] := List.drop_eq_nil_of_le (by omega)
  have two : touched off bytes.length ≤ 2 := by
    have width : bsize = 512 := rfl
    simp only [touched, width]
    split <;> omega
  rw [filewrite] at listed
  split at listed
  · contradiction
  · simp only [whole, nothing, List.mem_cons] at listed
    rcases listed with rfl | later
    · have bound := @bracket_trace fs slot cwd device layout bytes off
      rw [maxopblocks]
      omega
    · split at later
      · split at later
        · rw [filewrite, if_pos rfl] at later
          contradiction
        · contradiction
      · contradiction

section Lower
variable {fs : Fs} {held : Option Nat} {slot : CacheSlot} {cwd v k : Nat} {rest : List Nat}

theorem take_block_logs {p : Nat} {after : Fs}
    (took : KernelFs.takeBlock fs held v = .ok (p, after)) :
    takeBlock fs held v = ⟨.ok (p, after), [bblock v fs.sb, v]⟩ := by
  simp only [KernelFs.takeBlock, KernelFs.bzero, bind_ok] at took
  obtain ⟨buf, read, cleared, ⟨_, reread, zeroed⟩, result⟩ := took
  cases zeroed
  cases result
  simp only [takeBlock, bzero, bread, logWrite, read, reread, lift_ok_bind, emit_bind]
  rfl

theorem balloc_logs {p : Nat} {after : Fs} (allocated : KernelFs.balloc fs held cwd = .ok (p, after)) :
    ∃ v, p = dblock v fs.sb ∧ balloc fs held cwd = ⟨.ok (p, after), [bblock v fs.sb, v]⟩ := by
  simp only [KernelFs.balloc, bind_ok] at allocated
  obtain ⟨first, scanned, allocated⟩ := allocated
  rw [balloc, scanned, lift_ok_bind]
  cases first with
  | some v => exact ⟨v, (take_block_ok allocated).1, take_block_logs allocated⟩
  | none =>
    simp only [bind_ok] at allocated
    obtain ⟨second, rescanned, allocated⟩ := allocated
    simp only [rescanned, lift_ok_bind]
    cases second with
    | some v => exact ⟨v, (take_block_ok allocated).1, take_block_logs allocated⟩
    | none => contradiction

/-- Of the bits of the numbers up to 8122 those of `frees` are clear, in this order. -/
structure Frees (fs : Fs) (frees : List Nat) : Prop where
  layout : fs.sb = layoutSb
  bits : ∀ u, u ≤ 8122 → (Taken fs u ↔ u ∉ frees)
  sorted : frees.Pairwise (· < ·)

theorem Frees.balloc (free : Frees fs (v :: rest)) (small : v ≤ 8122)
    (apart : ∀ u, held ≠ some (bblock u layoutSb)) (other : held ≠ some v) : balloc fs held 1 =
    ⟨.ok (dblock v layoutSb, afterTake fs v), [bblock v layoutSb, v]⟩ := by
  have layout := free.layout
  have later := (List.pairwise_cons.mp free.sorted).1
  have start : searchStart fs 1 = 0 := by
    rw [searchStart, layout]
    decide
  have size : layoutSb.size = 101500 := by decide
  have first : FirstFree fs 1 v := by
    refine ⟨by rw [layout]; omega, ?_, .inl ⟨by omega, ?_⟩⟩
    · rw [free.bits v small]
      simp
    · intro u _ below
      rw [free.bits u (by omega), List.mem_cons, not_or]
      exact ⟨by omega, fun listed => by have := later u listed; omega⟩
  rw [← layout] at apart
  obtain ⟨w, same, logged⟩ := balloc_logs (balloc_first layout first apart other)
  rw [layout] at same logged
  obtain rfl : v = w := dblock_injective _ same
  exact logged

theorem Frees.write (free : Frees fs rest) (blockno : Nat) (data : Buffer)
    (notBitmap : ∀ u, bblock u layoutSb ≠ blockno) :
    Frees (KernelFs.logWrite fs blockno data) rest := by
  refine ⟨free.layout, fun u small => ?_, free.sorted⟩
  rw [← free.bits u small]
  have same : (KernelFs.logWrite fs blockno data).sb = fs.sb := rfl
  exact taken_congr same free.layout
    (fun w => KernelFs.log_write_other fs _ _ data (notBitmap w)) u

theorem Frees.take (free : Frees fs (v :: rest)) (notBitmap : ∀ u, bblock u layoutSb ≠ v) :
    Frees (afterTake fs v) rest := by
  obtain ⟨later, sorted⟩ := List.pairwise_cons.mp free.sorted
  refine ⟨free.layout, fun u small => ?_, sorted⟩
  rw [taken_after_take free.layout (notBitmap u), free.bits u small, List.mem_cons]
  constructor
  · rintro (absent | rfl)
    · exact fun listed => absent (.inr listed)
    · exact fun listed => absurd (later u listed) (lt_irrefl u)
  · intro absent
    by_cases same : u = v
    · exact .inr same
    · exact .inl fun listed => listed.elim same absent

/-- The file has its indirect block, number 4095, and `k` entries of it. -/
structure Crowded (fs : Fs) (frees : List Nat) (k : Nat) : Prop extends Frees fs frees where
  indirect : (fs.icache 0).din.addr ndirect = 4095
  entries : ∀ e, k ≤ e → e < nindirect →
    readLE (fs.disk 4095) (sizeofUint * e) sizeofUint = 0

def nextEntry (fs : Fs) (v k : Nat) : Fs :=
  KernelFs.logWrite (afterTake fs v) 4095 (writeLE ((afterTake fs v).disk 4095) (sizeofUint * k)
    sizeofUint (dblock v layoutSb))

theorem indirect_ne_bblock (u : Nat) : 4095 ≠ bblock u layoutSb := by
  rw [bblock_eq]
  omega

theorem Crowded.next (crowded : Crowded fs (v :: rest) k) (lower : 4095 < v)
    (notBitmap : ∀ u, bblock u layoutSb ≠ v) : Crowded (nextEntry fs v k) rest (k + 1) := by
  refine ⟨?_, crowded.indirect, ?_⟩
  · exact (crowded.toFrees.take notBitmap).write _ _ fun u => (indirect_ne_bblock u).symm
  · intro e above bound
    simp only [nextEntry, KernelFs.logWrite, update_self]
    rw [read_le_write_apart _ _ _ _ _ _ (by simp only [sizeofUint]; omega),
      after_take_block crowded.layout (by omega) (indirect_ne_bblock v)]
    exact crowded.entries e (by omega) bound

theorem bmap_entry (inside : k < nindirect) : bmap fs slot (ndirect + k) cwd = (do
    let fs ← fillAddr fs slot ndirect cwd
    let fs ← fillEntry fs slot k cwd
    pure (refAt fs.disk (fs.icache slot).din (.entry k), fs)) := by
  rw [bmap, if_neg (by omega), Nat.add_sub_cancel_left, if_pos inside]

theorem Crowded.map (crowded : Crowded fs (v :: rest) k) (inside : k < nindirect) (lower : 4095 < v)
    (small : v ≤ 8122) : bmap fs 0 (ndirect + k) 1 =
    ⟨.ok (dblock v layoutSb, nextEntry fs v k), [bblock v layoutSb, v, 4095]⟩ := by
  have allocated := crowded.toFrees.balloc small
    (fun u same => indirect_ne_bblock u (Option.some.inj same))
    (fun same => by have := Option.some.inj same; omega)
  have read : KernelFs.bread fs none 4095 = .ok (fs.disk 4095) := bread_none (by decide)
  have filled : fillEntry fs 0 k 1 =
      ⟨.ok (nextEntry fs v k), [bblock v layoutSb, v, 4095]⟩ := by
    simp only [fillEntry, bread, crowded.indirect, read, lift_ok_bind,
      crowded.entries k le_rfl inside, ↓reduceIte, allocated]
    rfl
  have entry : refAt (nextEntry fs v k).disk ((nextEntry fs v k).icache 0).din (.entry k) =
      dblock v layoutSb := by
    have same : ((nextEntry fs v k).icache 0).din.addr ndirect = 4095 := crowded.indirect
    rw [refAt, same, if_neg (by omega)]
    simp only [nextEntry, KernelFs.logWrite, update_self]
    rw [read_le_write_same]
    apply Nat.mod_eq_of_lt
    rw [dblock_eq, sizeofUint]
    omega
  rw [bmap_entry inside, fillAddr, crowded.indirect, if_neg (by decide)]
  have done : (pure fs : Op Fs) = lift (.ok fs) := rfl
  rw [done, lift_ok_bind, filled]
  show (⟨.ok _, _⟩ : Op (Nat × Fs)) = _
  rw [entry]
  rfl

theorem Crowded.write (crowded : Crowded fs rest k) (blockno : Nat) (data : Buffer)
    (other : 4095 ≠ blockno) (notBitmap : ∀ u, bblock u layoutSb ≠ blockno) :
    Crowded (KernelFs.logWrite fs blockno data) rest k := by
  refine ⟨crowded.toFrees.write blockno data notBitmap, crowded.indirect, ?_⟩
  rw [KernelFs.log_write_other fs _ _ data other]
  exact crowded.entries

theorem bmap_new_indirect {middle : Fs} {events : List Nat} (inside : k < nindirect)
    (filled : fillAddr fs slot ndirect cwd = ⟨.ok middle, events⟩)
    (present : (middle.icache slot).din.addr ndirect ≠ 0) : bmap fs slot (ndirect + k) cwd =
    ⟨(bmap middle slot (ndirect + k) cwd).outcome,
    events ++ (bmap middle slot (ndirect + k) cwd).trace⟩ := by
  rw [bmap_entry inside, bmap_entry inside, filled, fillAddr, if_neg present]
  rfl

def afterRound (mapped : Fs) (slot : CacheSlot) (src : List Byte) (p off cwd m : Nat) :
    Op (Nat × Fs) :=
  writeLoop (KernelFs.logWrite mapped p (copyInto (mapped.disk p) (off % bsize) (src.take m))) slot
    (src.drop m) (off + m) cwd

theorem write_loop_round {src : List Byte} {off p m : Nat} {mapped : Fs} {events : List Nat}
    (more : src ≠ []) (inside : p < fssize blockgroups)
    (length : min src.length (bsize - off % bsize) = m)
    (first : bmap fs slot (off / bsize) cwd = ⟨.ok (p, mapped), events⟩) :
    writeLoop fs slot src off cwd = ⟨(afterRound mapped slot src p off cwd m).outcome,
    events ++ p :: (afterRound mapped slot src p off cwd m).trace⟩ := by
  rw [writeLoop, if_neg more, first, length]
  have read : KernelFs.bread mapped none p = .ok (mapped.disk p) := bread_none inside
  have stored : storeBytes mapped p (off % bsize) (src.take m) = emit p (KernelFs.logWrite mapped p
      (copyInto (mapped.disk p) (off % bsize) (src.take m))) := by
    rw [storeBytes, bread, read, lift_ok_bind, logWrite]
  show (⟨(_ >>= _ : Op (Nat × Fs)).outcome, events ++ (_ >>= _ : Op (Nat × Fs)).trace⟩ :
    Op (Nat × Fs)) = _
  rw [stored]
  rfl

end Lower

/-- A file of one byte less than twelve blocks; the first free numbers lie in three groups. -/
def crowdedFs : Fs where
  sb := layoutSb
  disk := update (update (update (fun _ => blankBlock) 32
    (Mkfs.bitmap 4059)) 4097 (Mkfs.bitmap 4059)) 8162 (Mkfs.bitmap 1)
  icache := update emptyCache 0
    { inum := 2
      ref := 1
      busy := false
      valid := true
      din :=
        { Dinode.blank with
          type := tFile
          nlink := 1
          size := 6143
          addrs := fun index => if index.val < ndirect then BitVec.ofNat 32 (236 + index.val) else 0 } }

def lockedFs : Fs := KernelFs.setInode crowdedFs 0 { crowdedFs.icache 0 with busy := true }

theorem locked_frees : Frees lockedFs [4059, 8119, 8121, 8122] := by
  refine ⟨rfl, fun u small => ?_, by decide⟩
  have disk : lockedFs.disk = crowdedFs.disk := rfl
  have sb : lockedFs.sb = layoutSb := rfl
  rw [Taken, disk, sb, bblock_eq, bpb_value]
  have cases : u / 4060 = 0 ∨ u / 4060 = 1 ∨ u / 4060 = 2 := by omega
  rcases cases with group | group | group <;>
    simp [crowdedFs, group, MkfsInodes.bitmap_bit] <;> omega

theorem ne_bblock {b : Nat} (other : b % 4065 ≠ 32) (u : Nat) : bblock u layoutSb ≠ b := by
  rw [bblock_eq]
  omega

/-- The state in which the second block of the write gets its entry. -/
def indirectFs (data : Buffer) : Fs :=
  setDin (afterTake (KernelFs.logWrite lockedFs 247 data) 4059) 0
    ((lockedFs.icache 0).din.setAddr ndirect 4095)

theorem indirect_crowded (data : Buffer) : Crowded (indirectFs data) [8119, 8121, 8122] 0 ∧
    bmap (KernelFs.logWrite lockedFs 247 data) 0 (6144 / bsize) 1 =
    ⟨.ok (8160, nextEntry (indirectFs data) 8119 0), [32, 4059, 4097, 8119, 4095]⟩ := by
  have free := locked_frees.write 247 data (ne_bblock (by decide))
  have placed : ((indirectFs data).icache 0).din.addr ndirect = 4095 := by
    rw [indirectFs, KernelFs.set_din_same]
    exact Dinode.addr_set_same _ _ _ (by decide) (by decide)
  have crowded : Crowded (indirectFs data) [8119, 8121, 8122] 0 := by
    have took := free.take (ne_bblock (by decide))
    refine ⟨⟨took.layout, took.bits, took.sorted⟩, placed, fun e _ _ => ?_⟩
    have same : (indirectFs data).disk 4095 = blankBlock := by
      show (afterTake (KernelFs.logWrite lockedFs 247 data) 4059).disk 4095 = blankBlock
      rw [after_take_block free.layout (by decide) (indirect_ne_bblock 4059),
        KernelFs.log_write_other _ _ _ _ (by decide)]
      simp [lockedFs, KernelFs.setInode, crowdedFs]
    rw [same, read_blank_block]
  have filled : fillAddr (KernelFs.logWrite lockedFs 247 data) 0 ndirect 1 =
      ⟨.ok (indirectFs data), [32, 4059]⟩ := by
    have absent : ((KernelFs.logWrite lockedFs 247 data).icache 0).din.addr ndirect = 0 := rfl
    rw [fillAddr, if_pos absent, free.balloc (by decide) (fun _ => (Option.some_ne_none _).symm)
      (Option.some_ne_none _).symm]
    rfl
  refine ⟨crowded, ?_⟩
  rw [show 6144 / bsize = ndirect + 0 from rfl, bmap_new_indirect (by decide) filled (by rw [placed]; decide),
    crowded.map (by decide) (by decide) (by decide)]
  rfl

/-- What a long write there logs in its first three rounds. -/
def firstLogged : List Nat := [247, 32, 4059, 4097, 8119, 4095, 8160, 8162, 8121, 4095, 8167]

theorem locked_rounds {src : List Byte} (long : 514 ≤ src.length) :
    ∃ fs m, Crowded fs [8122] 2 ∧ (fs.icache 0).inum = 2 ∧ (fs.icache 0).din.size = 6143 ∧
    0 < m ∧ m ≤ 512 ∧ (src.length ≤ 513 + m ∨ m = 512) ∧ writeLoop lockedFs 0 src 6143 1 =
    ⟨(writeLoop fs 0 (src.drop (513 + m)) (6656 + m) 1).outcome,
    firstLogged ++ (writeLoop fs 0 (src.drop (513 + m)) (6656 + m) 1).trace⟩ := by
  have width : bsize = 512 := rfl
  have one : min src.length (bsize - 6143 % bsize) = 1 := by
    rw [width]
    omega
  have block : min (src.drop 1).length (bsize - 6144 % bsize) = 512 := by
    rw [width, List.length_drop]
    omega
  have direct : bmap lockedFs 0 (6143 / bsize) 1 = ⟨.ok (247, lockedFs), []⟩ := rfl
  rw [write_loop_round (List.ne_nil_of_length_pos (by omega)) (by decide) one direct, afterRound,
    show 6143 + 1 = 6144 from rfl]
  generalize copyInto (lockedFs.disk 247) (6143 % bsize) (src.take 1) = first
  obtain ⟨crowded, mapped⟩ := indirect_crowded first
  have second := crowded.next (by decide) (ne_bblock (by decide))
  have more : src.drop 1 ≠ [] := List.ne_nil_of_length_pos (by rw [List.length_drop]; omega)
  have onDisk : 8160 < fssize blockgroups := by decide
  rw [write_loop_round more onDisk block mapped, afterRound, List.drop_drop,
    show 6144 + 512 = 6656 from rfl]
  generalize copyInto ((nextEntry (indirectFs first) 8119 0).disk 8160) (6144 % bsize)
    ((src.drop 1).take 512) = data
  have stored := second.write 8160 data (by decide) (ne_bblock (by decide))
  have third := stored.map (by decide) (by decide) (by decide)
  rw [show ndirect + (0 + 1) = 6656 / bsize from rfl,
    show dblock 8121 layoutSb = 8167 by decide, show bblock 8121 layoutSb = 8162 by decide] at third
  have rest : src.drop (1 + 512) ≠ [] := List.ne_nil_of_length_pos (by rw [List.length_drop]; omega)
  have last : 8167 < fssize blockgroups := by decide
  rw [write_loop_round rest last rfl third, afterRound, List.drop_drop]
  generalize length : min (src.drop (1 + 512)).length (bsize - 6656 % bsize) = m
  rw [List.length_drop, width] at length
  refine ⟨_, m, (stored.next (by decide) (ne_bblock (by decide))).write 8167 _ (by decide)
    (ne_bblock (by decide)), rfl, rfl, by omega, by omega, by omega, rfl⟩

theorem grow_size_logs {fs : Fs} (layout : fs.sb = layoutSb) (number : (fs.icache 0).inum = 2)
    (off : Nat) : (growSize fs 0 off).trace = [33] := by
  have same (d : Dinode) : iblock ((setDin fs 0 d).icache 0).inum (setDin fs 0 d).sb = 33 := by
    rw [(KernelFs.set_din_entry fs 0 0 d).1, number]
    show iblock 2 fs.sb = 33
    rw [layout]
    decide
  have read (fs : Fs) : KernelFs.bread fs none 33 = .ok (fs.disk 33) := bread_none (by decide)
  simp only [growSize, iupdate, same, bread, read, lift_ok_bind]
  rfl

theorem locked_logs (device : BitVec 16 → Option Int) {src : List Byte} (long : 514 ≤ src.length)
    (short : src.length ≤ 6656) : ∃ b, (b = 33 ∨ b = 8122) ∧
    b :: firstLogged ⊆ (writei lockedFs device 0 src 6143 1).trace := by
  obtain ⟨fs, m, crowded, inum, size, positive, most, left, looped⟩ := locked_rounds long
  have limit : maxfile * bsize = 71680 := by decide
  have length : (lockedFs.icache 0).din.size.toNat = 6143 := rfl
  have plain : (lockedFs.icache 0).din.type ≠ tDev := by decide
  rw [writei, if_neg plain, if_neg (by omega), if_neg (by omega)]
  by_cases done : src.length ≤ 513 + m
  · have nothing : src.drop (513 + m) = [] := List.drop_eq_nil_of_le done
    have ended : writeLoop fs 0 [] (6656 + m) 1 = pure (6656 + m, fs) := by
      rw [writeLoop, if_pos rfl]
    rw [nothing, ended] at looped
    have grows : src ≠ [] ∧ (fs.icache 0).din.size.toNat < 6656 + m := by
      refine ⟨List.ne_nil_of_length_pos (by omega), ?_⟩
      rw [size]
      show 6143 < 6656 + m
      omega
    refine ⟨33, .inl rfl, ?_⟩
    rw [looped]
    show 33 :: firstLogged ⊆ (firstLogged ++ []) ++ (ite _ _ _ : Op (Int × Fs)).trace
    rw [if_pos grows, trace_bind_silent _ fun _ => rfl, grow_size_logs crowded.layout inum]
    intro b listed
    simpa [or_comm] using listed
  · refine ⟨8122, .inr rfl, List.Subset.trans ?_ (trace_subset_bind _)⟩
    have next := crowded.map (by decide) (by decide) (by decide)
    have more : src.drop (513 + m) ≠ [] := List.ne_nil_of_length_pos (by rw [List.length_drop]; omega)
    obtain rfl : m = 512 := by omega
    have index : (6656 + 512) / bsize = ndirect + 2 := rfl
    rw [looped, writeLoop, if_neg more, index, next]
    intro b listed
    rcases List.mem_cons.mp listed with rfl | early
    · exact List.mem_append_right _ (trace_subset_bind _ (by simp))
    · exact List.mem_append_left _ early

theorem not_fits_of_many {n : Nat} (many : 514 ≤ n) : ¬ Fits n := by
  intro fits
  have chunk : maxChunk = 6656 := by decide
  have ten := fits crowdedFs (fun _ => none) 0 (List.replicate n 0) 6143 1 rfl List.length_replicate
  rw [filewrite, if_neg (List.ne_nil_of_length_pos (by rw [List.length_replicate]; omega))] at ten
  have most := ten _ (.head _)
  have locking : (lift (KernelFs.ilock crowdedFs 0) : Op Fs).outcome = .ok lockedFs := rfl
  rw [bracket, trace_bind_ok _ locking, trace_lift, List.nil_append,
    trace_bind_silent _ fun _ => trace_bind_silent _ fun _ => rfl] at most
  have length : ((List.replicate n (0 : Byte)).take maxChunk).length = min maxChunk n := by
    rw [List.length_take, List.length_replicate]
  rcases locked_logs (fun _ => none) (show 514 ≤ ((List.replicate n 0).take maxChunk).length by omega)
    (by omega) with ⟨b, which, logged⟩
  have eleven : (b :: firstLogged).toFinset.card = 11 := by
    rcases which with rfl | rfl <;> decide
  have all : (b :: firstLogged).toFinset ⊆ (writei lockedFs (fun _ => none) 0
      ((List.replicate n 0).take maxChunk) 6143 1).trace.toFinset :=
    fun block listed => List.mem_toFinset.mpr (logged (List.mem_toFinset.mp listed))
  have more := Finset.card_le_card all
  rw [maxopblocks] at most
  omega

/-- The bound on a chunk is computed from the size of the log, not from the share of one
transaction, and only short writes fit their share. -/
theorem filewrite_fits_iff (n : Nat) : Fits n ↔ n ≤ 513 := by
  constructor
  · intro fits
    by_contra many
    exact not_fits_of_many (by omega) fits
  · exact fits_of_few

/-- Already 514 bytes do not fit. -/
theorem short_write_overflows : ¬ ∀ n, Fits n :=
  fun fits => not_fits_of_many le_rfl (fits 514)

end Xv6Hacks.WriteTransactions
