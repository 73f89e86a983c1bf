import Xv6Hacks.InodeFrames

/-!
# Path lookup on the disk

`walk` is what `namex` finds, read off the directories on the disk. A call that runs alone
finds what `walk` says, and its lookups leave the disk as it is.
-/

namespace Xv6Hacks.FileCalls

open Outcomes Programs
open BlockGroupLayout (rootino)
open ByteBuffers (Byte)
open DiskFormat (tDir)
open KernelFs (CacheSlot)

theorem skipelem_shorter {path rest : List Byte} {name : Name}
    (found : skipelem path = some (name, rest)) : rest.length < path.length := by
  rw [skipelem] at found
  dsimp only at found
  split at found
  next => cases found
  next some =>
    cases found
    have nonempty : path.dropWhile (· == slash) ≠ [] := by simpa using some
    obtain ⟨first, tail, shape⟩ := List.exists_cons_of_ne_nil nonempty
    have here : (first == slash) = false := by
      have head := List.head?_dropWhile_not (· == slash) path
      rw [shape] at head
      simpa using head
    have skipped : (path.dropWhile (· == slash)).length ≤ path.length :=
      (List.dropWhile_suffix _).length_le
    have element : (tail.dropWhile (· != slash)).length ≤ tail.length :=
      (List.dropWhile_suffix _).length_le
    have slashes := (List.dropWhile_suffix (l := tail.dropWhile (· != slash)) (· == slash)).length_le
    rw [shape] at skipped ⊢
    rw [List.dropWhile_cons_of_pos (by simp [bne, here])]
    rw [List.length_cons] at skipped
    omega

theorem elementsFrom_enough (fuel more : Nat) (path : List Byte) (enough : path.length ≤ fuel)
    (also : path.length ≤ more) : elementsFrom fuel path = elementsFrom more path := by
  induction fuel generalizing more path with
  | zero =>
    have empty : path = [] := List.length_eq_zero_iff.mp (by omega)
    subst empty
    cases more <;> rfl
  | succ fuel ih =>
    cases more with
    | zero =>
      have empty : path = [] := List.length_eq_zero_iff.mp (by omega)
      subst empty
      rfl
    | succ more =>
      rw [elementsFrom, elementsFrom]
      cases found : skipelem path with
      | none => rfl
      | some result =>
        obtain ⟨name, rest⟩ := result
        have shorter := skipelem_shorter found
        dsimp only
        rw [ih more rest (by omega) (by omega)]

/-- `elements` follows the loop `while((path = skipelem(path, name)) != 0)`. -/
theorem elements_eq (path : List Byte) : elements path =
      match skipelem path with
      | none => []
      | some (name, rest) => name :: elements rest := by
  rw [elements, elementsFrom_enough _ (path.length + 1) path le_rfl (Nat.le_succ _), elementsFrom]
  cases found : skipelem path with
  | none => rfl
  | some result =>
    obtain ⟨name, rest⟩ := result
    have shorter := skipelem_shorter found
    dsimp only
    rw [elements, elementsFrom_enough path.length rest.length rest (by omega) le_rfl]

def lookup (node : Node) (name : Name) : Option (Nat × Nat) :=
  (node.entries.findIdx? (isNamed name)).map fun k => ((node.entries.getD k ⟨0, []⟩).inum, k)

/-- The inode at the end of the path and its name, or that of the directory one level
earlier; `ok none` when an element is missing. -/
def walk (nodes : Nat → Node) (parent : Bool) :
    List Name → Nat → Name → Except Stop (Option (Nat × Name))
  | [], i, last => if parent then .ok none else .ok (some (i, last))
  | name :: rest, i, _ =>
    if (nodes i).type = 0 then .error .noType
    else if (nodes i).type ≠ tDir then .ok none
    else if parent ∧ rest.isEmpty then .ok (some (i, name))
    else
      match lookup (nodes i) name with
      | none => .ok none
      | some (j, _) => walk nodes parent rest j name

variable {outer sys : Sys} {fresh : Option Nat} {nodes : Nat → Node} {held : List (CacheSlot × Nat)}
  {locks : List CacheSlot} {s : CacheSlot} {i choice : Nat} {p : Pid}

theorem dirlookup_spec (frame : Frame outer fresh nodes held locks sys) (member : (s, i) ∈ held)
    (locked : s ∈ locks) (directory : (nodes i).type = tDir) (name : Name) :
    Yields ((dirlookup s name).run (handle choice p) sys) (fun result =>
        match lookup (nodes i) name with
        | none => result.1 = none ∧ result.2 = sys
        | some (j, k) => ∃ t, result.1 = some (t, k) ∧
            Frame outer fresh nodes ((t, j) :: held) locks result.2)
      (fun reason => reason = .noCacheEntries ∧ ∀ t, 0 < (sys.icache t).ref) := by
  rw [dirlookup, run_bind, readInode_spec frame member locked, ok_bind]
  dsimp only
  rw [if_neg (not_not.mpr directory), lookup]
  cases (nodes i).entries.findIdx? (isNamed name) with
  | none => exact ⟨rfl, rfl⟩
  | some k =>
    apply yields_run_bind (iget_spec frame _)
    intro t after now
    exact ⟨t, rfl, now⟩

theorem Referenced.mono {more : List (CacheSlot × Nat)} (before : Referenced outer fresh held nodes)
    (within : ∀ ref ∈ held, ref ∈ more) : Referenced outer fresh more nodes := by
  intro i notFresh typed unlinked
  obtain ⟨s, home | member⟩ := before i notFresh typed unlinked
  · exact ⟨s, .inl home⟩
  · exact ⟨s, .inr (within _ member)⟩

/-- What a lookup that started with the references `held` ends with. -/
def Found (outer : Sys) (nodes : Nat → Node) (held : List (CacheSlot × Nat))
    (walked : Except Stop (Option (Nat × Name))) (result : Option (CacheSlot × Name))
    (after : Sys) : Prop :=
  match walked with
  | .error _ => False
  | .ok none => result = none ∧ Frame outer none nodes held [] after
  | .ok (some (j, name)) => ∃ t, result = some (t, name) ∧
      Frame outer none nodes ((t, j) :: held) [] after

/-- All cache entries but one at most are in use. -/
def Crowded (outer : Sys) (held : List (CacheSlot × Nat)) : Prop :=
  ∃ s, ∀ t, t ≠ s → 0 < (outer.icache t).ref + (held.map Prod.fst).count t

theorem Frame.crowded (frame : Frame outer fresh nodes ((s, i) :: held) locks sys)
    (full : ∀ t, 0 < (sys.icache t).ref) : Crowded outer held := by
  refine ⟨s, fun t different => ?_⟩
  rw [count_held t different, ← frame.refs t]
  exact full t

theorem namexLoop_spec (before : Referenced outer none held nodes) (parent : Bool)
    (names : List Name) (last : Name) (frame : Frame outer none nodes ((s, i) :: held) [] sys) :
    Yields ((namexLoop parent names s last).run (handle choice p) sys)
    (fun result => Found outer nodes held (walk nodes parent names i last) result.1 result.2)
    (fun reason => walk nodes parent names i last = .error reason ∨
    reason = .noCacheEntries ∧ Crowded outer held) := by
  have old : ∀ j, (none : Option Nat) ≠ some j := fun j => (Option.some_ne_none j).symm
  induction names generalizing s i last sys with
  | nil =>
    rw [namexLoop, walk]
    split
    next =>
      apply yields_run_then (iput_back frame before (old i) fun locked =>
        absurd locked List.not_mem_nil)
      intro _ after now
      exact ⟨rfl, now⟩
    next => exact ⟨s, rfl, frame⟩
  | cons name rest ih =>
    rw [namexLoop, walk]
    refine yields_run_seq (ilock_spec frame (.head _)) ?_ ?_
    · rintro reason (⟨rfl, untyped⟩ | ⟨-, locked⟩)
      · rw [if_pos untyped]
        exact .inl rfl
      · exact absurd locked List.not_mem_nil
    rintro _ one ⟨typed, -, now⟩
    rw [if_neg typed, run_bind, readInode_spec now (.head _) (.head _), ok_bind]
    dsimp only
    by_cases directory : (nodes i).type = tDir
    · rw [if_neg (not_not.mpr directory), if_neg (not_not.mpr directory)]
      by_cases stop : parent = true ∧ rest.isEmpty = true
      · rw [if_pos stop, if_pos stop]
        apply yields_run_then (iunlock_spec now)
        intro _ after done
        exact ⟨s, rfl, done⟩
      · rw [if_neg stop, if_neg stop]
        refine yields_run_seq (dirlookup_spec now (.head _) (.head _)
          directory name) (fun _ full => .inr ⟨full.1, now.crowded full.2⟩) ?_
        intro next two found
        cases entry : lookup (nodes i) name with
        | none =>
          rw [entry] at found
          obtain ⟨rfl, rfl⟩ := found
          apply yields_run_then (iunlockput_back now before (old i))
          intro _ after done
          exact ⟨rfl, done⟩
        | some result =>
          obtain ⟨j, k⟩ := result
          rw [entry] at found
          obtain ⟨t, rfl, both⟩ := found
          have swapped := both.perm (List.Perm.swap ..) (List.Perm.refl _)
          have covered : Referenced outer none ((t, j) :: held) nodes :=
            before.mono fun ref member => .tail _ member
          apply yields_run_then (iunlockput_back swapped covered (old i))
          intro _ after done
          exact ih name done
    · rw [if_pos directory, if_pos directory]
      apply yields_run_then (iunlockput_back now before (old i))
      intro _ after done
      exact ⟨rfl, done⟩

def origin (outer : Sys) (p : Pid) (path : List Byte) : Nat :=
  if path.head? = some slash then rootino
  else ((outer.procs p).cwd.map fun s => (outer.icache s).inum).getD 0

def HasCwd (sys : Sys) (p : Pid) : Prop :=
  ∃ s, (sys.procs p).cwd = some s ∧ 0 < (sys.icache s).ref

theorem namex_spec (frame : Frame outer none nodes held [] sys) (cwd : HasCwd outer p)
    (path : List Byte) (parent : Bool) : Yields ((namex path parent).run (handle choice p) sys)
    (fun result => Found outer nodes held
    (walk nodes parent (elements path) (origin outer p path) []) result.1 result.2)
    (fun reason => walk nodes parent (elements path) (origin outer p path) [] = .error reason ∨
    reason = .noCacheEntries ∧ Crowded outer held) := by
  rw [namex, origin]
  split
  next =>
    refine yields_run_seq (iget_spec frame rootino) ?_ ?_
    · rintro _ ⟨rfl, full⟩
      exact .inr ⟨rfl, 0, fun t _ => frame.refs t ▸ full t⟩
    intro s after now
    exact namexLoop_spec frame.referenced parent _ [] now
  next =>
    obtain ⟨s, here, inUse⟩ := cwd
    apply yields_run_then (idupCwd_spec frame here inUse)
    rintro _ after ⟨rfl, now⟩
    rw [here, Option.map_some, Option.getD_some]
    exact namexLoop_spec frame.referenced parent _ [] now

/-- Every entry of every directory names an inode that exists. -/
def NoDangling (nodes : Nat → Node) : Prop :=
  ∀ d, (nodes d).type = tDir → ∀ de ∈ (nodes d).entries, de.inum ≠ 0 → (nodes de.inum).type ≠ 0

/-- So do the places where the paths of a process start. -/
structure Clean (outer : Sys) (p : Pid) (nodes : Nat → Node) : Prop where
  entries : NoDangling nodes
  root : (nodes rootino).type ≠ 0
  cwd : ∀ s, (outer.procs p).cwd = some s → (nodes (outer.icache s).inum).type ≠ 0

/-- On a clean disk "ilock: no type" is not a reason to stop. -/
def Benign (outer : Sys) (p : Pid) (nodes : Nat → Node) (reason : Stop) : Prop :=
  reason = .noType → ¬ Clean outer p nodes

theorem benign_of_ne {reason : Stop} (other : reason ≠ .noType) : Benign outer p nodes reason :=
  fun same => absurd same other

theorem lookup_spec {node : Node} {name : Name} {j k : Nat} (found : lookup node name = some (j, k)) :
    j ≠ 0 ∧ ∃ de ∈ node.entries, de.inum = j := by
  obtain ⟨index, search, same⟩ := Option.map_eq_some_iff.mp found
  obtain ⟨rfl, rfl⟩ := Prod.mk.inj same
  obtain ⟨below, named, -⟩ := List.findIdx?_eq_some_iff_getElem.mp search
  have entry : node.entries.getD index ⟨0, []⟩ = node.entries[index] := by
    rw [List.getD_eq_getElem?_getD, List.getElem?_eq_getElem below, Option.getD_some]
  rw [isNamed, decide_eq_true_eq] at named
  rw [entry]
  exact ⟨named.1, _, List.getElem_mem below, rfl⟩

theorem NoDangling.lookup_typed (sound : NoDangling nodes) (directory : (nodes i).type = tDir)
    {name : Name} {j k : Nat} (found : lookup (nodes i) name = some (j, k)) :
    (nodes j).type ≠ 0 := by
  obtain ⟨used, de, member, rfl⟩ := lookup_spec found
  exact sound i directory de member used

theorem walk_clean (sound : NoDangling nodes) (parent : Bool) (names : List Name) (last : Name)
    (typed : (nodes i).type ≠ 0) : ∃ result, walk nodes parent names i last = .ok result := by
  induction names generalizing i last with
  | nil =>
    rw [walk]
    split
    next => exact ⟨none, rfl⟩
    next => exact ⟨some (i, last), rfl⟩
  | cons name rest ih =>
    rw [walk, if_neg typed]
    split
    next => exact ⟨none, rfl⟩
    next directory =>
      have directory := not_not.mp directory
      split
      next => exact ⟨some (i, name), rfl⟩
      next =>
        cases entry : lookup (nodes i) name with
        | none => exact ⟨none, rfl⟩
        | some result => exact ih name (sound.lookup_typed directory entry)

theorem Clean.origin (clean : Clean outer p nodes) (cwd : HasCwd outer p) (path : List Byte) :
    (nodes (origin outer p path)).type ≠ 0 := by
  rw [FileCalls.origin]
  split
  next => exact clean.root
  next =>
    obtain ⟨s, here, -⟩ := cwd
    rw [here, Option.map_some, Option.getD_some]
    exact clean.cwd s here

theorem walk_parent_directory {names : List Name} {last name : Name} {d : Nat}
    (found : walk nodes true names i last = .ok (some (d, name))) : (nodes d).type = tDir := by
  induction names generalizing i last with
  | nil =>
    rw [walk] at found
    cases found
  | cons first rest ih =>
    rw [walk] at found
    split at found
    next => cases found
    next =>
      split at found
      next => cases found
      next directory =>
        split at found
        next =>
          cases found
          exact not_not.mp directory
        next =>
          split at found
          next => cases found
          next => exact ih found

abbrev resolve (outer : Sys) (p : Pid) (nodes : Nat → Node) (parent : Bool) (path : List Byte) :
    Except Stop (Option (Nat × Name)) :=
  walk nodes parent (elements path) (origin outer p path) []

theorem resolve_clean (clean : Clean outer p nodes) (cwd : HasCwd outer p) (parent : Bool)
    (path : List Byte) : ∃ result, resolve outer p nodes parent path = .ok result :=
  walk_clean clean.entries parent _ [] (clean.origin cwd path)

theorem namex_yields (frame : Frame outer none nodes held [] sys) (cwd : HasCwd outer p)
    (path : List Byte) (parent : Bool) : Yields ((namex path parent).run (handle choice p) sys)
    (fun result => Found outer nodes held (resolve outer p nodes parent path) result.1 result.2)
    (Benign outer p nodes) := by
  apply (namex_spec frame cwd path parent).mono (fun _ found => found)
  rintro reason (stopped | ⟨rfl, -⟩)
  · rintro rfl clean
    obtain ⟨result, walked⟩ := resolve_clean clean cwd parent path
    rw [resolve, stopped] at walked
    cases walked
  · exact benign_of_ne (by decide)

end Xv6Hacks.FileCalls
