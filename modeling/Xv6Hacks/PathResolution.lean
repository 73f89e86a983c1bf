import Xv6Hacks.FilePlacement

/-!
# Paths resolve component by component

The names of a path and the inode it leads to, said without the loops of `skipelem` and
`namex`: the pieces of the path between slashes, and a fold of directory lookups over them.
The frame at the end says that the references and locks are those of the beginning, apart
from the reference that is returned.
-/

namespace Xv6Hacks.PathResolution

open FileCalls FilePlacement Function Outcomes Programs
open ByteBuffers (Byte)
open DiskFormat (tDir)

/-- The maximal parts of a path without a slash that are not empty. -/
def pieces (path : List Byte) : List (List Byte) := (path.splitOn slash).filter (· ≠ [])

def components (path : List Byte) : List Name := (pieces path).map (List.take dirsiz)

theorem pieces_append (word rest : List Byte) :
    pieces (word ++ slash :: rest) = pieces word ++ pieces rest := by
  have split := List.splitOnP_append_cons (p := (· == slash)) word rest (beq_self_eq_true slash)
  rw [pieces, List.splitOn, split, List.filter_append]
  rfl

theorem pieces_word {word : List Byte} (nonempty : word ≠ [])
    (clear : ∀ x ∈ word, (x == slash) = false) : pieces word = [word] := by
  rw [pieces, List.splitOn, List.splitOnP_eq_singleton clear]
  simp [nonempty]

theorem pieces_skip (path : List Byte) : pieces (path.dropWhile (· == slash)) = pieces path := by
  induction path with
  | nil => rfl
  | cons first rest ih =>
    rw [List.dropWhile_cons]
    split
    next here =>
      rw [ih, beq_iff_eq.mp here]
      exact (pieces_append [] rest).symm
    next => rfl

theorem pieces_first {path : List Byte} (nonempty : path.takeWhile (· != slash) ≠ []) :
    pieces path = path.takeWhile (· != slash) :: pieces (path.dropWhile (· != slash)) := by
  have clear : ∀ x ∈ path.takeWhile (· != slash), (x == slash) = false := by
    intro x member
    simpa using List.all_eq_true.mp List.all_takeWhile x member
  have whole := List.takeWhile_append_dropWhile (p := (· != slash)) (l := path)
  cases tail : path.dropWhile (· != slash) with
  | nil =>
    rw [tail, List.append_nil] at whole
    rw [whole] at nonempty clear ⊢
    exact pieces_word nonempty clear
  | cons first rest =>
    have here : first = slash := by
      have head := List.head?_dropWhile_not (· != slash) path
      rw [tail] at head
      simpa using head
    rw [tail, here] at whole
    have after : pieces (slash :: rest) = pieces rest := pieces_append [] rest
    rw [here, after]
    nth_rewrite 1 [← whole]
    rw [pieces_append, pieces_word nonempty clear]
    rfl

theorem elements_components (path : List Byte) : elements path = components path := by
  -- By induction on the length: what `skipelem` leaves of the path is shorter.
  induction length : path.length using Nat.strong_induction_on generalizing path with
  | _ size ih =>
    rw [elements_eq, components, ← pieces_skip]
    cases found : skipelem path with
    | none =>
      rw [skipelem] at found
      split at found
      next empty =>
        rw [List.isEmpty_iff.mp empty]
        rfl
      next => cases found
    | some result =>
      obtain ⟨name, rest⟩ := result
      have shorter := skipelem_shorter found
      rw [skipelem] at found
      split at found
      next => cases found
      next stripped =>
        cases found
        have word : (path.dropWhile (· == slash)).takeWhile (· != slash) ≠ [] := by
          obtain ⟨first, tail, shape⟩ :=
            List.exists_cons_of_ne_nil fun empty => stripped (List.isEmpty_iff.mpr empty)
          have head := List.head?_dropWhile_not (· == slash) path
          rw [shape] at head ⊢
          rw [List.takeWhile_cons_of_pos (by simpa [bne] using head)]
          exact List.cons_ne_nil _ _
        have rest := ih _ (length ▸ shorter) _ rfl
        rw [components, pieces_skip] at rest
        rw [pieces_first word, List.map_cons, ← rest]

variable {nodes : Nat → Node} {i : Nat}

def child (nodes : Nat → Node) (i : Nat) (name : Name) : Option Nat :=
  if (nodes i).type = tDir then (lookup (nodes i) name).map Prod.fst else none

def descend (nodes : Nat → Node) (names : List Name) (i : Nat) : Option Nat :=
  names.foldlM (child nodes) i

theorem descend_append (before after : List Name) : descend nodes (before ++ after) i =
    (descend nodes before i).bind (descend nodes after) := List.foldlM_append

/-- The directory that the last name is looked up in, with that name. -/
def descendParent (nodes : Nat → Node) (names : List Name) (i : Nat) : Option (Nat × Name) := do
  let name ← names.getLast?
  let d ← descend nodes names.dropLast i
  if (nodes d).type = tDir then some (d, name) else none

theorem walk_descend (sound : NoDangling nodes) (names : List Name) (last : Name)
    (typed : (nodes i).type ≠ 0) : walk nodes false names i last =
    .ok ((descend nodes names i).map fun j => (j, names.getLastD last)) := by
  induction names generalizing i last with
  | nil => rfl
  | cons name rest ih =>
    rw [walk, if_neg typed, descend, List.foldlM_cons, child, List.getLastD_cons]
    by_cases directory : (nodes i).type = tDir
    · rw [if_neg (not_not.mpr directory), if_pos directory, if_neg (by simp)]
      cases entry : lookup (nodes i) name with
      | none => rfl
      | some found => exact ih name (sound.lookup_typed directory entry)
    · rw [if_pos directory, if_neg directory]
      rfl

theorem walk_descend_parent (sound : NoDangling nodes) (names : List Name) (last : Name)
    (typed : (nodes i).type ≠ 0) :
    walk nodes true names i last = .ok (descendParent nodes names i) := by
  induction names generalizing i last with
  | nil => rfl
  | cons name rest ih =>
    rw [walk, if_neg typed]
    by_cases directory : (nodes i).type = tDir
    · rw [if_neg (not_not.mpr directory)]
      cases rest with
      | nil => simp [descendParent, descend, directory]
      | cons next rest =>
        rw [if_neg (by simp)]
        cases entry : lookup (nodes i) name with
        | none => simp [descendParent, descend, child, directory, entry]
        | some found =>
          refine (ih name (sound.lookup_typed directory entry)).trans ?_
          simp [descendParent, descend, child, directory, entry]
    · rw [if_pos directory]
      cases rest with
      | nil => simp [descendParent, descend, directory]
      | cons next rest => simp [descendParent, descend, child, directory]

theorem descend_last {names : List Name} {name : Name} {d : Nat}
    (parent : descendParent nodes names i = some (d, name)) :
    (nodes d).type = tDir ∧ (lookup (nodes d) name).map Prod.fst = descend nodes names i := by
  simp only [descendParent, Option.bind_eq_bind, Option.bind_eq_some_iff] at parent
  obtain ⟨last, isLast, dir, reached, directory⟩ := parent
  split at directory
  next isDir =>
    cases directory
    have whole := List.dropLast_append_getLast? _ isLast
    refine ⟨isDir, ?_⟩
    rw [← whole, descend_append, reached]
    simp [descend, child, isDir]
  next => cases directory

theorem descend_none_iff (names : List Name) : descend nodes names i = none ↔
    ∃ before name after d, names = before ++ name :: after ∧ descend nodes before i = some d ∧
    child nodes d name = none := by
  constructor
  · intro fails
    induction names generalizing i with
    | nil => cases fails
    | cons name rest ih =>
      cases next : child nodes i name with
      | none => exact ⟨[], name, rest, i, rfl, rfl, next⟩
      | some j =>
        rw [descend, List.foldlM_cons, next] at fails
        obtain ⟨before, other, after, d, rfl, reached, missing⟩ := ih fails
        refine ⟨name :: before, other, after, d, rfl, ?_, missing⟩
        rw [descend, List.foldlM_cons, next]
        exact reached
  · rintro ⟨before, name, after, d, rfl, reached, missing⟩
    rw [descend_append, reached]
    simp [descend, missing]

/-- What `namei` and `nameiparent` do with a path. They stop only when the inode cache has no
entry left, which takes all entries but one to be in use before. -/
structure Resolves (sys : Sys) (p : Pid) (choice : Nat) (path : List Byte) : Prop where
  names : elements path = components path
  namei : Yields ((namei path).run (handle choice p) sys)
    (fun result => match descend sys.nodes (components path) (origin sys p path) with
      | none => result.1 = none ∧ Frame sys none sys.nodes [] [] result.2
      | some j => ∃ s, result.1 = some s ∧ Frame sys none sys.nodes [(s, j)] [] result.2)
    fun reason => reason = .noCacheEntries ∧ Crowded sys []
  fails : descend sys.nodes (components path) (origin sys p path) = none ↔
    ∃ before name after d, components path = before ++ name :: after ∧
      descend sys.nodes before (origin sys p path) = some d ∧ child sys.nodes d name = none
  nameiparent : Yields ((nameiparent path).run (handle choice p) sys)
    (fun result => match descendParent sys.nodes (components path) (origin sys p path) with
      | none => result.1 = none ∧ Frame sys none sys.nodes [] [] result.2
      | some (d, name) => ∃ s, result.1 = some (s, name) ∧
          Frame sys none sys.nodes [(s, d)] [] result.2 ∧ (sys.nodes d).type = tDir ∧
          (lookup (sys.nodes d) name).map Prod.fst =
            descend sys.nodes (components path) (origin sys p path))
    fun reason => reason = .noCacheEntries ∧ Crowded sys []
  noParent : components path = [] →
    descendParent sys.nodes (components path) (origin sys p path) = none

theorem path_resolution {sys : Sys} {p : Pid} (rest : Frame sys none sys.nodes [] [] sys)
    (cwd : HasCwd sys p) (clean : Clean sys p sys.nodes) (choice : Nat) (path : List Byte) :
    Resolves sys p choice path := by
  have typed := clean.origin cwd path
  have names := elements_components path
  have walked := walk_descend clean.entries (components path) [] typed
  have walkedParent := walk_descend_parent clean.entries (components path) [] typed
  have loop := @namex_spec sys sys sys.nodes [] choice p rest cwd path
  simp only [names] at loop
  constructor
  case names => exact names
  case namei =>
    have found := loop false
    simp only [walked, reduceCtorEq, false_or] at found
    apply yields_run_bind found
    intro result after found
    cases reached : descend sys.nodes (components path) (origin sys p path) with
    | none =>
      rw [reached] at found
      obtain ⟨rfl, frame⟩ := found
      exact ⟨rfl, frame⟩
    | some j =>
      rw [reached] at found
      obtain ⟨s, rfl, frame⟩ := found
      exact ⟨s, rfl, frame⟩
  case fails => exact descend_none_iff _
  case nameiparent =>
    have found := loop true
    simp only [walkedParent, reduceCtorEq, false_or] at found
    apply found.mono _ fun _ stops => stops
    intro result found
    cases reached : descendParent sys.nodes (components path) (origin sys p path) with
    | none =>
      rw [reached] at found
      exact found
    | some place =>
      rw [reached] at found
      obtain ⟨s, same, frame⟩ := found
      exact ⟨s, same, frame, descend_last reached⟩
  case noParent =>
    intro none
    rw [none]
    rfl

theorem folder_clean : Clean folderSys 0 folderSys.nodes := by
  constructor
  case entries =>
    intro d directory
    change (folderNodes d).type = tDir at directory
    have place : d = 1 ∨ d = 29 := by
      rw [folder_nodes_type] at directory
      by_contra other
      rw [if_neg other] at directory
      exact absurd directory (by decide)
    rcases place with rfl | rfl
    · decide
    · decide
  case root => decide
  case cwd =>
    intro s isCwd
    cases isCwd
    decide

theorem folder_path_resolved :
    descend folderSys.nodes (components [47, 97]) 1 = some 29 ∧ Resolves folderSys 0 0 [47, 97] :=
  ⟨by decide, path_resolution folder_rest ⟨0, rfl, by decide⟩ folder_clean 0 [47, 97]⟩

end Xv6Hacks.PathResolution
