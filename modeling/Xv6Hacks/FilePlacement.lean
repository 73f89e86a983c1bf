import Xv6Hacks.CallEffects
import Xv6Hacks.InodeAllocation

/-!
# In which group a new file lands

`create` finds the parent directory from the path, but `ialloc` starts from the group of the
current directory of the process. `ialloc` is the one of `KernelFs`, run on an inode table
with the types that the directory tree has.
-/

namespace Xv6Hacks.FilePlacement

open BlockGroupLayout ByteBuffers DiskFormat FileCalls Function InodeAllocation
open WriteSequences
open BlockAccounting
open BlockFrames (emptyCache)
open GroupStatistics (layout_ipbg)
open KernelFs (CacheSlot Fs)

/-- The inode table on the disk has the types of the directory tree. -/
def SameTypes (fs : Fs) (nodes : Nat → Node) : Prop :=
  ∀ inum, inum < fs.sb.ninodes → (loadDinode fs.disk fs.sb inum).type = (nodes inum).type

def GroupHasRoom (nodes : Nat → Node) (group : Nat) : Prop :=
  ∃ inum, 0 < inum ∧ inum < layoutSb.ninodes ∧ bgroup inum layoutSb = group ∧
    (nodes inum).type = 0

/-- From the group of the current directory up to that of the parent no inode is free. -/
def Leads (nodes : Nat → Node) (cwd parent : Nat) : Prop :=
  bgroup cwd layoutSb ≤ bgroup parent layoutSb ∧
    ∀ inum, 0 < inum → inodeHead cwd layoutSb ≤ inum → inum < inodeHead parent layoutSb →
      (nodes inum).type ≠ 0

theorem allocates_first {fs : Fs} (layout : fs.sb = layoutSb) {type : BitVec 16}
    (notDir : type ≠ tDir) {cwd inum : Nat} (allocates : Allocates fs type cwd inum) :
    FirstFreeInode fs (fileStart fs cwd) inum := by
  obtain ⟨found, first, -⟩ := (file_allocates_iff layout notDir).mp ⟨inum, allocates⟩
  obtain ⟨slot, after, allocated, number, -⟩ := allocates.returned
  rw [ialloc_file_takes layout notDir first] at allocated
  rw [← number, (iget_entry allocated).2.2.2]
  exact first

theorem same_group_iff {fs : Fs} (layout : fs.sb = layoutSb) {nodes : Nat → Node}
    (types : SameTypes fs nodes) {cwd parent inum : Nat}
    (first : FirstFreeInode fs (fileStart fs cwd) inum)
    (room : GroupHasRoom nodes (bgroup parent layoutSb)) :
    bgroup inum layoutSb = bgroup parent layoutSb ↔ Leads nodes cwd parent := by
  obtain ⟨lower, inside, isFree, before⟩ := first
  obtain ⟨free, positive, below, belongs, isRoom⟩ := room
  have table (i : Nat) (small : i < layoutSb.ninodes) : FreeInode fs i ↔ (nodes i).type = 0 := by
    rw [FreeInode, types i (by rw [layout]; exact small)]
  have starts : fileStart fs cwd = if cwd / 29 * 29 = 0 then 1 else cwd / 29 * 29 := by
    rw [fileStart, inodeHead, layout, layout_ipbg]
  rw [layout] at inside
  simp only [bgroup, inodeHead, layout_ipbg, Leads] at belongs ⊢
  constructor
  · intro same
    refine ⟨by split at starts <;> omega, ?_⟩
    intro earlier some after early
    rw [Ne, ← table earlier (by omega)]
    apply before earlier _ (by omega)
    split at starts <;> omega
  · rintro ⟨order, used⟩
    have notLater : inum ≤ free := by
      by_contra later
      apply before free _ (by omega) ((table free below).mpr isRoom)
      split at starts <;> omega
    have notEarlier : parent / 29 * 29 ≤ inum := by
      by_contra earlier
      refine used inum ?_ ?_ (by omega) ((table inum inside).mp isFree)
      all_goals split at starts <;> omega
    omega

theorem create_number {sys : Sys} (rest : Frame sys none sys.nodes [] [] sys) {p : Pid}
    {cwd : CacheSlot} (isCwd : (sys.procs p).cwd = some cwd) (inUse : 0 < (sys.icache cwd).ref)
    {path : List Byte} {parent : Nat} {name : Name}
    (resolved : resolve sys p sys.nodes true path = .ok (some (parent, name)))
    (absent : lookup (sys.nodes parent) name = none) {inum : Nat} {ip : CacheSlot} {after : Sys}
    (made : (create path tFile 0 0).run (handle inum p) sys = .ok (some ip, after)) :
    (after.icache ip).inum = inum := by
  have typed : tFile ≠ 0 := by decide
  have spec := (create_spec rest ⟨cwd, isCwd, inUse⟩ path typed 0 0).of_ok made
  unfold Creates at spec
  rw [resolved] at spec
  dsimp only at spec
  rw [absent] at spec
  obtain ⟨-, -, slot, disk, same, frame, -⟩ := spec
  obtain rfl := Option.some.inj same
  exact frame.inums ip inum (.head _)

/-- A new file lands in the group of its folder exactly when the scan leads there: the
folder's group is that of the current directory, or a later one with every inode in between
in use. -/
theorem file_near_folder_iff (sys : Sys) (rest : Frame sys none sys.nodes [] [] sys) (fs : Fs)
    (layout : fs.sb = layoutSb) (types : SameTypes fs sys.nodes) (p : Pid) (cwd : CacheSlot)
    (isCwd : (sys.procs p).cwd = some cwd) (inUse : 0 < (sys.icache cwd).ref) (path : List Byte)
    (parent : Nat) (name : Name)
    (resolved : resolve sys p sys.nodes true path = .ok (some (parent, name)))
    (absent : lookup (sys.nodes parent) name = none)
    (room : GroupHasRoom sys.nodes (bgroup parent layoutSb)) (inum : Nat)
    (allocates : Allocates fs tFile (sys.icache cwd).inum inum) (ip : CacheSlot) (after : Sys)
    (made : (create path tFile 0 0).run (handle inum p) sys = .ok (some ip, after)) :
    bgroup (after.icache ip).inum layoutSb = bgroup parent layoutSb ↔
      Leads sys.nodes (sys.icache cwd).inum parent := by
  rw [create_number rest isCwd inUse resolved absent made]
  exact same_group_iff layout types (allocates_first layout (by decide) allocates) room

def directoryNode (number parent : Nat) (nlink : BitVec 16) (others : List Dirent) : Node where
  type := tDir
  major := 0
  minor := 0
  nlink := nlink
  entries := [⟨number, dot⟩, ⟨parent, dotdot⟩] ++ others
  bytes := []

/-- The root has a folder "a", which is inode 29, the first of group 1. -/
def folderNodes : Nat → Node :=
  update
    (update (fun _ => Node.zero) 29 (directoryNode 29 1 1 []))
    1 (directoryNode 1 1 2 [⟨29, [97]⟩])

def folderSys : Sys where
  nodes := folderNodes
  icache := fun s =>
    { inum := 1, ref := if s = 0 then 1 else 0, busy := false, valid := false, din := Node.zero }
  ftable := fun _ => { ref := 0, ip := none, off := 0, readable := false, writable := false }
  procs := fun p =>
    { state := if p = 0 then .runnable else .unused
      ofile := fun _ => none
      cwd := if p = 0 then some 0 else none }
  initproc := 0

def storeDirectory (disk : Store Buffer) (inum : Nat) : Store Buffer :=
  update disk (iblock inum layoutSb)
    (writeDinode (disk (iblock inum layoutSb)) (dinodeoffset inum layoutSb)
      { Dinode.blank with type := tDir })

def folderTable : Fs where
  sb := layoutSb
  disk := storeDirectory (storeDirectory (fun _ => blankBlock) 29) 1
  icache := emptyCache

theorem folder_nodes_type (inum : Nat) :
    (folderNodes inum).type = if inum = 1 ∨ inum = 29 then tDir else 0 := by
  unfold folderNodes
  by_cases root : inum = 1
  · subst root
    rfl
  · rw [update_of_ne root]
    by_cases folder : inum = 29
    · subst folder
      rfl
    · rw [update_of_ne folder, if_neg (by omega)]
      rfl

theorem folder_rest : Frame folderSys none folderSys.nodes [] [] folderSys where
  ftable := rfl
  procs := rfl
  initproc := rfl
  disk := rfl
  refs := fun _ => rfl
  homes := fun _ _ => rfl
  inums := fun _ _ member => absurd member List.not_mem_nil
  unique := by decide
  busy := by decide
  locked := fun _ member => absurd member List.not_mem_nil
  once := List.nodup_nil
  copies := fun _ _ valid => absurd valid Bool.false_ne_true
  kept := by
    intro inum _ typed unlinked
    have kind := folder_nodes_type inum
    change (folderNodes inum).type ≠ 0 at typed
    change (folderNodes inum).nlink = 0 at unlinked
    rw [kind] at typed
    split at typed
    next which =>
      rcases which with rfl | rfl
      · exact absurd unlinked (by decide)
      · exact absurd unlinked (by decide)
    next => exact absurd rfl typed

theorem folder_types : SameTypes folderTable folderSys.nodes := by
  intro inum _
  change (loadDinode (storeDirectory (storeDirectory (fun _ => blankBlock) 29) 1) layoutSb
    inum).type = (folderNodes inum).type
  rw [folder_nodes_type]
  by_cases root : inum = 1
  · rw [root, storeDirectory, load_write_same]
    rfl
  · rw [storeDirectory, load_write_other _ 1 inum _ root]
    by_cases folder : inum = 29
    · rw [folder, storeDirectory, load_write_same]
      rfl
    · rw [storeDirectory, load_write_other _ 29 inum _ folder, loadDinode, read_dinode_blank,
        if_neg (by omega)]
      rfl

theorem folder_free_iff {inum : Nat} (inside : inum < layoutSb.ninodes) :
    FreeInode folderTable inum ↔ inum ≠ 1 ∧ inum ≠ 29 := by
  have kind := folder_types inum inside
  change _ = (folderNodes inum).type at kind
  rw [FreeInode, kind, folder_nodes_type]
  split
  next which =>
    have used : tDir ≠ 0 := by decide
    simp only [used, false_iff]
    omega
  next => simp_all

theorem folder_allocates : Allocates folderTable tFile 1 2 := by
  have first : FirstFreeInode folderTable (fileStart folderTable 1) 2 := by
    have start : fileStart folderTable 1 = 1 := by decide
    refine ⟨by rw [start]; decide, by decide, (folder_free_iff (by decide)).mpr (by decide), ?_⟩
    intro earlier above below free
    have here : earlier = 1 := by omega
    rw [here, folder_free_iff (by decide)] at free
    exact free.1 rfl
  have claims := @ialloc_file_takes folderTable rfl tFile (by decide) 1 2 first
  exact allocates_of_claim rfl claims (by decide) (by decide) first.free ⟨0, .inr rfl⟩

/-- "/a/f" -/
def filePath : List Byte := [47, 97, 47, 102]

theorem folder_resolved :
    resolve folderSys 0 folderSys.nodes true filePath = .ok (some (29, [102])) := by
  decide +kernel

theorem folder_room : GroupHasRoom folderSys.nodes (bgroup 29 layoutSb) :=
  ⟨30, by decide, by decide, by decide, by decide⟩

theorem folder_create_returns :
    ∃ ip after, (create filePath tFile 0 0).run (handle 2 0) folderSys = .ok (some ip, after) := by
  have check : (((create filePath tFile 0 0).run (handle 2 0) folderSys).toOption.bind
      Prod.fst).isSome = true := by
    decide +kernel
  rcases returned : (create filePath tFile 0 0).run (handle 2 0) folderSys with
    _ | ⟨_ | ip, after⟩
  case ok.some => exact ⟨ip, after, rfl⟩
  all_goals
    rw [returned] at check
    cases check

theorem folder_file_placed :
    ∃ ip after, (create filePath tFile 0 0).run (handle 2 0) folderSys = .ok (some ip, after) ∧
      (bgroup (after.icache ip).inum layoutSb = bgroup 29 layoutSb ↔ Leads folderSys.nodes 1 29) := by
  obtain ⟨ip, after, made⟩ := folder_create_returns
  exact ⟨ip, after, made, file_near_folder_iff folderSys folder_rest folderTable rfl folder_types 0 0
    rfl (by decide) filePath 29 [102] folder_resolved (by decide) folder_room 2 folder_allocates
    ip after made⟩

/-- "/a/f" becomes inode 2 of group 0, while "a" is in group 1. -/
theorem file_far_from_folder :
    ¬ ∀ (sys : Sys), Frame sys none sys.nodes [] [] sys → ∀ fs : Fs, fs.sb = layoutSb →
      SameTypes fs sys.nodes → ∀ (p : Pid) (cwd : CacheSlot), (sys.procs p).cwd = some cwd →
      0 < (sys.icache cwd).ref → ∀ path parent name,
      resolve sys p sys.nodes true path = .ok (some (parent, name)) →
      lookup (sys.nodes parent) name = none →
      GroupHasRoom sys.nodes (bgroup parent layoutSb) → ∀ inum,
      Allocates fs tFile (sys.icache cwd).inum inum → ∀ ip after,
      (create path tFile 0 0).run (handle inum p) sys = .ok (some ip, after) →
      bgroup (after.icache ip).inum layoutSb = bgroup parent layoutSb := by
  intro always
  obtain ⟨ip, after, made⟩ := folder_create_returns
  have placed := always folderSys folder_rest folderTable rfl folder_types 0 0 rfl (by decide)
    filePath 29 [102] folder_resolved (by decide) folder_room 2 folder_allocates ip after made
  rw [create_number folder_rest rfl (by decide) folder_resolved (by decide) made] at placed
  exact absurd placed (by decide)

end Xv6Hacks.FilePlacement
