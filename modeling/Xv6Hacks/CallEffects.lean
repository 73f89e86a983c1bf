import Xv6Hacks.PathLookup

/-!
# What `create` does to the disk

`dirlink` and `create`, run alone from a settled state: what is returned, and the inodes and
directories afterwards.
-/

namespace Xv6Hacks.FileCalls

open Function Outcomes Programs
open ByteBuffers (Byte)
open DiskFormat (tDir tFile)
open KernelFs (CacheSlot)

variable {dp ip : CacheSlot} {d n : Nat} {type : BitVec 16}

variable {outer sys : Sys} {fresh : Option Nat} {nodes : Nat → Node} {held : List (CacheSlot × Nat)}
  {locks : List CacheSlot} {s : CacheSlot} {i choice : Nat} {p : Pid}

theorem not_fresh (j : Nat) : (none : Option Nat) ≠ some j := (Option.some_ne_none j).symm

def Node.withEntry (node : Node) (de : Dirent) : Node :=
  { node with entries := addEntry node.entries de }

section
variable (frame : Frame outer none nodes held locks sys) (member : (s, i) ∈ held)
  (locked : s ∈ locks)
include frame member locked

theorem dirlink_spec (safe : ∀ t ∈ locks, ∃ j, (t, j) ∈ held) (directory : (nodes i).type = tDir)
    (name : Name) (number : Nat) :
    Yields ((dirlink s name number).run (handle choice p) sys) (fun result =>
        match lookup (nodes i) name with
        | some _ => result.1 = false ∧ Frame outer none nodes held locks result.2
        | none => result.1 = true ∧
            Frame outer none (update nodes i ((nodes i).withEntry ⟨number, name⟩)) held
              locks result.2)
      (fun reason => reason = .noCacheEntries ∨ reason = .dirlink) := by
  rw [dirlink]
  refine yields_run_seq (dirlookup_spec frame member locked directory name)
    (fun _ full => .inl full.1) ?_
  intro found one now
  cases entry : lookup (nodes i) name with
  | some result =>
    obtain ⟨j, k⟩ := result
    rw [entry] at now
    obtain ⟨t, rfl, both⟩ := now
    apply yields_run_then (iput_back both frame.referenced (not_fresh j) (safe t))
    intro _ after done
    exact ⟨rfl, done⟩
  | none =>
    rw [entry] at now
    obtain ⟨rfl, rfl⟩ := now
    dsimp only
    rw [run_bind, readInode_spec frame member locked, ok_bind]
    dsimp only
    split
    next => exact .inr rfl
    next =>
      have typed : (nodes i).type ≠ 0 := by
        rw [directory]
        decide
      refine yields_run_then (writeInode_spec frame member locked _ typed) ?_
      intro _ after done
      exact ⟨rfl, done⟩

theorem dirlink_absent (safe : ∀ t ∈ locks, ∃ j, (t, j) ∈ held) (directory : (nodes i).type = tDir)
    {name : Name} (absent : lookup (nodes i) name = none)
    (number : Nat) : Yields ((dirlink s name number).run (handle choice p) sys)
    (fun result => result.1 = true ∧
    Frame outer none (update nodes i ((nodes i).withEntry ⟨number, name⟩)) held locks result.2)
    (fun reason => reason ≠ .noType) := by
  refine (dirlink_spec frame member locked safe directory name number).mono ?_ ?_
  · intro result done
    rw [absent] at done
    exact done
  · rintro reason (rfl | rfl) <;> decide

end

theorem lookup_nil (node : Node) (name : Name) (empty : node.entries = []) :
    lookup node name = none := by
  rw [lookup, empty]
  rfl

theorem lookup_dot (node : Node) (number : Nat) (single : node.entries = [⟨number, dot⟩]) :
    lookup node dotdot = none := by
  have other : isNamed dotdot ⟨number, dot⟩ = false := by simp [isNamed, dot, dotdot]
  rw [lookup, single, List.findIdx?_cons, other]
  rfl

theorem addEntry_dot {number : Nat} (positive : 0 < number) (de : Dirent) :
    addEntry [⟨number, dot⟩] de = [⟨number, dot⟩, de] := by
  have used : decide (number = 0) = false := decide_eq_false positive.ne'
  rw [addEntry, List.findIdx?_cons, used]
  rfl

def newInode (number parent : Nat) (type major minor : BitVec 16) : Node where
  type := type
  major := major
  minor := minor
  nlink := 1
  entries := if type = tDir then [⟨number, dot⟩, ⟨parent, dotdot⟩] else []
  bytes := []

def newParent (node : Node) (number : Nat) (name : Name) (type : BitVec 16) : Node :=
  { node.withEntry ⟨number, name⟩ with
    nlink := if type = tDir then node.nlink + 1 else node.nlink }

def created (nodes : Nat → Node) (parent number : Nat) (name : Name)
    (type major minor : BitVec 16) : Nat → Node :=
  update (update nodes number (newInode number parent type major minor)) parent
    (newParent (nodes parent) number name type)

section
variable (frame : Frame outer none nodes held locks sys)
include frame

theorem ialloc_spec (type : BitVec 16) :
    Yields ((perform (Op.ialloc type) : Prog Nat).run (handle choice p) sys)
      (fun result => result.1 = choice ∧ 0 < choice ∧ (nodes choice).type = 0 ∧
        Frame outer (some choice)
          (update nodes choice { Node.zero with type := type }) held locks result.2)
      (fun reason => reason = .noInodes) := by
  rw [run_perform, handle, frame.disk]
  split
  next free =>
    refine ⟨rfl, free.1, free.2, ?_⟩
    have elsewhere : ∀ j, j ≠ choice →
        update nodes choice { Node.zero with type := type } j = nodes j :=
      fun j different => update_of_ne different ..
    refine { frame with disk := ?_, copies := ?_, kept := ?_ }
    · rw [Sys.setNode, frame.disk]
    · intro t positive valid
      obtain ⟨copy, exists'⟩ := frame.copies t positive valid
      have different : (sys.icache t).inum ≠ choice := by
        intro same
        rw [same] at exists'
        exact exists' free.2
      rw [Sys.setNode, elsewhere _ different]
      exact ⟨copy, exists'⟩
    · intro j notFresh isTyped unlinked
      have different : j ≠ choice := fun same => notFresh (congrArg some same.symm)
      rw [elsewhere j different] at isTyped unlinked
      exact frame.kept j (not_fresh j) isTyped unlinked
  next => exact rfl

theorem createInode_spec (typed : type ≠ 0) (major minor : BitVec 16) :
    Yields ((createInode type major minor).run (handle choice p) sys)
      (fun result => 0 < choice ∧ (nodes choice).type = 0 ∧ result.1 ∉ locks ∧ Frame outer none
          (update nodes choice
            { Node.zero with type := type, major := major, minor := minor, nlink := 1 })
          ((result.1, choice) :: held) (result.1 :: locks) result.2)
      (fun reason => reason ≠ .noType) := by
  rw [createInode]
  refine yields_run_seq (ialloc_spec frame type) (fun _ full => by rw [full]; decide) ?_
  rintro _ one ⟨rfl, positive, free, now⟩
  refine yields_run_seq (iget_spec now _) (fun _ full => by rw [full.1]; decide) ?_
  intro ip two now
  refine yields_run_seq (ilock_spec now (.head _)) ?_ ?_
  · rintro reason (⟨-, untyped⟩ | ⟨rfl, -⟩)
    · rw [update_self] at untyped
      exact absurd untyped typed
    · decide
  rintro _ three ⟨-, unlocked, now⟩
  have now := now.settle (.head _) (.head _)
  rw [run_bind, readInode_spec now (.head _) (.head _), ok_bind]
  dsimp only
  rw [update_self]
  refine yields_run_then (writeInode_spec now (.head _) (.head _) _ typed) ?_
  intro _ four done
  rw [update_idem] at done
  exact ⟨positive, free, unlocked, done⟩

theorem createDots_spec (parent : (dp, d) ∈ held) (child : (ip, n) ∈ held) (dpLocked : dp ∈ locks)
    (ipLocked : ip ∈ locks) (safe : ∀ t ∈ locks, ∃ j, (t, j) ∈ held) (different : d ≠ n)
    (positive : 0 < n) (dpType : (nodes d).type = tDir) (ipType : (nodes n).type = tDir)
    (empty : (nodes n).entries = []) : Yields ((createDots dp ip).run (handle choice p) sys)
      (fun result => Frame outer none
        (update (update nodes d { nodes d with nlink := (nodes d).nlink + 1 }) n
          { nodes n with entries := [⟨n, dot⟩, ⟨d, dotdot⟩] }) held locks result.2)
      (fun reason => reason ≠ .noType) := by
  rw [createDots, run_bind, readInode_spec frame parent dpLocked, ok_bind]
  dsimp only
  refine yields_run_then (writeInode_spec frame parent dpLocked _ ?_) ?_
  · rw [dpType]
    decide
  intro _ one now
  dsimp only at now
  generalize raised : update nodes d
    { nodes d with nlink := (nodes d).nlink + 1 } = first at now ⊢
  have childNode : first n = nodes n := by
    rw [← raised]
    exact update_of_ne different.symm ..
  rw [run_bind, inum_spec now child, ok_bind]
  dsimp only
  refine yields_run_bind (dirlink_absent now child ipLocked safe (childNode ▸ ipType)
    (lookup_nil _ dot (childNode ▸ empty)) n) ?_
  rintro _ two ⟨rfl, now⟩
  dsimp only at now
  have withDot : (first n).withEntry ⟨n, dot⟩ = { nodes n with entries := [⟨n, dot⟩] } := by
    rw [childNode, Node.withEntry, empty]
    rfl
  rw [withDot] at now
  rw [if_pos rfl, run_bind, inum_spec now parent, ok_bind]
  dsimp only
  have dotNode : update first n { nodes n with entries := [⟨n, dot⟩] } n =
      { nodes n with entries := [⟨n, dot⟩] } := update_self ..
  refine yields_run_bind (dirlink_absent now child ipLocked safe ?_ ?_ d) ?_
  · rw [dotNode]
    exact ipType
  · rw [dotNode]
    exact lookup_dot _ n rfl
  rintro _ three ⟨rfl, now⟩
  rw [dotNode, update_idem, Node.withEntry, addEntry_dot positive] at now
  rw [if_pos rfl]
  exact now

end

/-- The parent as it is before the new name is entered. -/
def raised (node : Node) (type : BitVec 16) : Node :=
  { node with nlink := if type = tDir then node.nlink + 1 else node.nlink }

theorem createDots_case {major minor : BitVec 16} (frame : Frame outer none (update nodes n
        { Node.zero with type := type, major := major, minor := minor, nlink := 1 })
      held locks sys) (parent : (dp, d) ∈ held) (child : (ip, n) ∈ held) (dpLocked : dp ∈ locks)
    (ipLocked : ip ∈ locks) (safe : ∀ t ∈ locks, ∃ j, (t, j) ∈ held) (different : d ≠ n)
    (positive : 0 < n) (dpType : (nodes d).type = tDir) :
    Yields ((if type = tDir then createDots dp ip else pure ()).run (handle choice p) sys)
      (fun result => Frame outer none
        (update (update nodes n (newInode n d type major minor)) d
          (raised (nodes d) type)) held locks result.2)
      (fun reason => reason ≠ .noType) := by
  have parentNode : update nodes n
      { Node.zero with type := type, major := major, minor := minor, nlink := 1 } d = nodes d :=
    update_of_ne different ..
  by_cases directory : type = tDir
  · rw [if_pos directory]
    refine (createDots_spec frame parent child dpLocked ipLocked safe different positive
      (parentNode ▸ dpType) ?_ ?_).mono ?_ (fun _ reason => reason)
    · rw [update_self]
      exact directory
    · rw [update_self]
      rfl
    · intro result done
      rw [parentNode, update_self, update_comm different, update_idem] at done
      rw [newInode, if_pos directory, raised, if_pos directory]
      exact done
  · rw [if_neg directory, newInode, if_neg directory, raised, if_neg directory]
    have same : update (update nodes n ⟨type, major, minor, 1, [], []⟩) d
        (nodes d) = update nodes n ⟨type, major, minor, 1, [], []⟩ := by
      rw [update_eq_iff]
      exact ⟨(update_of_ne different ..).symm, fun _ _ => rfl⟩
    rw [same]
    exact frame

theorem created_eq (name : Name) (type major minor : BitVec 16) : update
    (update (update nodes n (newInode n d type major minor)) d (raised (nodes d) type)) d
    ((raised (nodes d) type).withEntry ⟨n, name⟩) = created nodes d n name type major minor := by
  rw [update_idem]
  rfl

theorem created_referenced (before : Referenced outer none [] nodes) {name : Name}
    {major minor : BitVec 16} (counts : type = tDir → (nodes d).nlink + 1 ≠ 0) :
    Referenced outer none held (created nodes d n name type major minor) := by
  have old : ∀ j, (nodes j).type ≠ 0 → (nodes j).nlink = 0 →
      ∃ s, 0 < (outer.icache s).ref ∧ (outer.icache s).inum = j ∨ (s, j) ∈ held := by
    intro j typed unlinked
    obtain ⟨s, home | member⟩ := before j (not_fresh j) typed unlinked
    · exact ⟨s, .inl home⟩
    · exact absurd member List.not_mem_nil
  intro j _ typed unlinked
  rw [created] at typed unlinked
  by_cases atParent : j = d
  · subst atParent
    rw [update_self] at typed unlinked
    change (if type = tDir then (nodes j).nlink + 1 else (nodes j).nlink) = 0 at unlinked
    split at unlinked
    next directory => exact absurd unlinked (counts directory)
    next => exact old j typed unlinked
  · rw [update_of_ne atParent] at typed unlinked
    by_cases atNew : j = n
    · subst atNew
      rw [update_self] at unlinked
      exact absurd unlinked (by decide : (1 : BitVec 16) ≠ 0)
    · rw [update_of_ne atNew] at typed unlinked
      exact old j typed unlinked

/-- How `create` ends: with the file that was there, with a new inode, or with nothing. -/
def Creates (outer : Sys) (p : Pid) (choice : Nat) (nodes : Nat → Node) (path : List Byte)
    (type major minor : BitVec 16) (result : Option CacheSlot) (after : Sys) : Prop :=
  match resolve outer p nodes true path with
  | .error _ => False
  | .ok none => result = none ∧ Frame outer none nodes [] [] after
  | .ok (some (d, name)) =>
    match lookup (nodes d) name with
    | some (j, _) =>
      if type = tFile ∧ (nodes j).type = tFile then
        ∃ t, result = some t ∧ Frame outer none nodes [(t, j)] [t] after
      else result = none ∧ Frame outer none nodes [] [] after
    | none => 0 < choice ∧ (nodes choice).type = 0 ∧ ∃ t disk, result = some t ∧
        Frame outer none disk [(t, choice)] [t] after ∧
        ((type = tDir → (nodes d).nlink + 1 ≠ 0) →
          disk = created nodes d choice name type major minor)

theorem createNew_spec (start : Referenced outer none [] nodes)
    (frame : Frame outer none nodes [(dp, d)] [dp] sys) (directory : (nodes d).type = tDir)
    {name : Name} (absent : lookup (nodes d) name = none) (typed : type ≠ 0)
    (major minor : BitVec 16) :
    Yields ((createNew dp name type major minor).run (handle choice p) sys)
    (fun result => 0 < choice ∧ (nodes choice).type = 0 ∧ ∃ t disk, result.1 = some t ∧
    Frame outer none disk [(t, choice)] [t] result.2 ∧ ((type = tDir → (nodes d).nlink + 1 ≠ 0) →
    disk = created nodes d choice name type major minor)) (fun reason => reason ≠ .noType) := by
  rw [createNew]
  apply yields_run_bind (createInode_spec frame typed major minor)
  rintro ip one ⟨positive, free, -, now⟩
  dsimp only at now
  have different : d ≠ choice := by
    rintro rfl
    rw [free] at directory
    exact absurd directory (by decide)
  have safe : ∀ t ∈ [ip, dp], ∃ j, (t, j) ∈ [(ip, choice), (dp, d)] := by
    intro t member
    rcases List.mem_pair.mp member with rfl | rfl
    · exact ⟨choice, by simp⟩
    · exact ⟨d, by simp⟩
  have parentHeld : (dp, d) ∈ [(ip, choice), (dp, d)] := List.mem_cons_of_mem _ (.head _)
  have parentLocked : dp ∈ [ip, dp] := List.mem_cons_of_mem _ (.head _)
  refine yields_run_bind (createDots_case now parentHeld (.head _) parentLocked
    List.mem_cons_self safe different positive directory) ?_
  intro _ two now
  rw [run_bind, inum_spec now (.head _), ok_bind]
  have parentNode : update
      (update nodes choice (newInode choice d type major minor)) d
      (raised (nodes d) type) d = raised (nodes d) type := update_self ..
  refine yields_run_bind (dirlink_absent now parentHeld parentLocked safe ?_ ?_ choice) ?_
  · rw [parentNode]
    exact directory
  · rw [parentNode]
    exact absent
  rintro _ three ⟨rfl, now⟩
  rw [parentNode, created_eq] at now
  dsimp only at now
  rw [if_pos rfl]
  have swapped := now.perm (List.Perm.swap ..) (List.Perm.swap ..)
  refine yields_run_then (iunlockput_spec swapped (not_fresh d)) ?_
  rintro _ four ⟨disk, put, done⟩
  refine ⟨positive, free, ip, disk, rfl, done, ?_⟩
  intro counts
  exact swapped.put_unchanged (created_referenced start counts) (not_fresh d) put

theorem create_found {j : Nat} (start : Referenced outer none [] nodes)
    (frame : Frame outer none nodes [(ip, j), (dp, d)] [dp] sys) (type : BitVec 16) :
    Yields ((do
        iunlockput dp
        ilock ip
        let node ← readInode ip
        if type = tFile ∧ node.type = tFile then pure (some ip)
        else do
          iunlockput ip
          pure none : Prog (Option CacheSlot)).run (handle choice p) sys)
      (fun result =>
        if type = tFile ∧ (nodes j).type = tFile then
          ∃ t, result.1 = some t ∧ Frame outer none nodes [(t, j)] [t] result.2
        else result.1 = none ∧ Frame outer none nodes [] [] result.2)
      (fun reason => reason = .noType ∧ (nodes j).type = 0) := by
  have swapped := frame.perm (List.Perm.swap ..) (List.Perm.refl _)
  have covered : Referenced outer none [(ip, j)] nodes :=
    start.mono fun ref member => absurd member List.not_mem_nil
  refine yields_run_then (iunlockput_back swapped covered (not_fresh d)) ?_
  intro _ one now
  refine yields_run_seq (ilock_spec now (.head _)) ?_ ?_
  · rintro reason (untyped | ⟨-, locked⟩)
    · exact untyped
    · exact absurd locked List.not_mem_nil
  rintro _ two ⟨typed, -, now⟩
  rw [run_bind, readInode_spec now (.head _) (.head _), ok_bind]
  dsimp only
  split
  next => exact ⟨ip, rfl, now⟩
  next =>
    apply yields_run_then (iunlockput_back now start (not_fresh j))
    intro _ after done
    exact ⟨rfl, done⟩

theorem create_spec (frame : Frame outer none nodes [] [] sys) (cwd : HasCwd outer p)
    (path : List Byte) (typed : type ≠ 0) (major minor : BitVec 16) :
    Yields ((create path type major minor).run (handle choice p) sys)
    (fun result => Creates outer p choice nodes path type major minor result.1 result.2)
    (Benign outer p nodes) := by
  rw [create, nameiparent]
  refine yields_run_bind (namex_yields frame cwd path true) ?_
  intro found one now
  unfold Creates
  cases walked : resolve outer p nodes true path with
  | error reason =>
    rw [walked] at now
    exact now.elim
  | ok place =>
  cases place with
  | none =>
    rw [walked] at now
    obtain ⟨rfl, now⟩ := now
    exact ⟨rfl, now⟩
  | some place =>
  obtain ⟨d, name⟩ := place
  rw [walked] at now
  obtain ⟨dp, rfl, now⟩ := now
  have directory := walk_parent_directory walked
  dsimp only
  refine yields_run_seq (ilock_spec now (.head _)) ?_ ?_
  · rintro reason (⟨-, untyped⟩ | ⟨-, locked⟩)
    · rw [directory] at untyped
      exact absurd untyped (by decide)
    · exact absurd locked List.not_mem_nil
  rintro _ two ⟨-, -, now⟩
  refine yields_run_seq (dirlookup_spec now (.head _) (.head _) directory name)
    (fun reason full => benign_of_ne (by rw [full.1]; decide)) ?_
  intro entry three looked
  cases found : lookup (nodes d) name with
  | none =>
    rw [found] at looked
    obtain ⟨rfl, rfl⟩ := looked
    exact (createNew_spec frame.referenced now directory found typed major minor).mono
      (fun _ done => done) (fun _ other => benign_of_ne other)
  | some place =>
    obtain ⟨j, k⟩ := place
    rw [found] at looked
    obtain ⟨ip, rfl, both⟩ := looked
    refine (create_found frame.referenced both type).mono (fun _ done => done) ?_
    rintro _ ⟨rfl, untyped⟩ _ clean
    exact clean.entries.lookup_typed directory found untyped

end Xv6Hacks.FileCalls
