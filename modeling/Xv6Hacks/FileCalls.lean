import Xv6Hacks.FileArrays
import Xv6Hacks.KernelFs
import Xv6Hacks.ProcTable
import Xv6Hacks.Programs

/-!
# Directories, open files and the calls on them

`sysfile.c` and `file.c` with the inode and directory layers of `fs.c` under them. An
inode has its fields and its contents: the entries of a directory or the bytes of a
file. How contents lie in blocks, and the log, are not part of this model; neither is
the second device number, as there is one disk. Inode numbers fit the `ushort` of a
directory entry.

A call is a program of operations. An operation is one critical section, that is
what happens under `icache.lock`, `ftable.lock` or `ptable.lock` or on an inode whose
lock is held, with the steps on data of its own process (`proc->ofile`, `proc->cwd`,
locals). A change to a locked inode and the `iupdate` after it are one operation. An
operation that panics, or that would put its process to sleep, stops with an error.
-/

namespace Xv6Hacks.FileCalls

open Function Programs
open BlockGroupLayout (bsize maxChunk maxfile rootino)
open ByteBuffers (Byte)
open DiskFormat (tDev tDir tFile)
open FileArrays (overwrite)
open KernelFs (CacheSlot ninode)
open ProcTable (nproc)

abbrev nfile : Nat := 100
abbrev nofile : Nat := 16
def dirsiz : Nat := 14
def direntSize : Nat := 16

abbrev Pid := Fin nproc
abbrev FileSlot := Fin nfile
abbrev Fd := Fin nofile

inductive Stop where
  /-- "iget: no inodes" -/
  | noCacheEntries
  /-- "ilock" -/
  | ilock
  /-- "ilock: no type" -/
  | noType
  /-- "iunlock" -/
  | iunlock
  /-- "iput busy" -/
  | iputBusy
  /-- "ialloc: no inodes" or "No More free iNodes" -/
  | noInodes
  /-- "dirlookup not DIR" -/
  | notDir
  /-- "dirlink" -/
  | dirlink
  /-- "create dots" -/
  | createDots
  /-- "create: dirlink" -/
  | createDirlink
  /-- "unlink: nlink < 1" -/
  | unlinkNlink
  /-- "unlink: writei" -/
  | unlinkWritei
  /-- "filedup" -/
  | filedup
  /-- "fileclose" -/
  | fileclose
  /-- "filewrite" -/
  | filewrite
  /-- "init exiting" -/
  | initExiting
  /-- A write to a device or to a directory, which is not modelled. -/
  | notRegular
  /-- A null `proc->cwd` is followed. -/
  | noCwd
  /-- The process sleeps on a busy inode. -/
  | asleep
  deriving DecidableEq, Repr

/-- A path element, cut to `DIRSIZ` bytes. -/
abbrev Name := List Byte

structure Dirent where
  inum : Nat
  name : Name
  deriving DecidableEq, Repr

structure Node where
  type : BitVec 16
  major : BitVec 16
  minor : BitVec 16
  nlink : BitVec 16
  entries : List Dirent
  bytes : List Byte
  deriving DecidableEq, Repr

def Node.zero : Node := ⟨0, 0, 0, 0, [], []⟩

/-- `struct inode`; `busy` and `valid` are the two flags, `din` is the copy of the
disk inode. -/
structure Inode where
  inum : Nat
  ref : Nat
  busy : Bool
  valid : Bool
  din : Node
  deriving DecidableEq, Repr

/-- `struct file`; the type is `FD_INODE` when `ip` is set and `FD_NONE` otherwise. -/
structure File where
  ref : Nat
  ip : Option CacheSlot
  off : Nat
  readable : Bool
  writable : Bool
  deriving DecidableEq, Repr

inductive ProcState where
  | unused
  | embryo
  | runnable
  | zombie
  deriving DecidableEq, Repr

structure Proc where
  state : ProcState
  ofile : Fd → Option FileSlot
  cwd : Option CacheSlot

structure Sys where
  nodes : Nat → Node
  icache : CacheSlot → Inode
  ftable : FileSlot → File
  procs : Pid → Proc
  initproc : Pid

def Sys.setInode (sys : Sys) (slot : CacheSlot) (inode : Inode) : Sys :=
  { sys with icache := update sys.icache slot inode }

def Sys.setNode (sys : Sys) (inum : Nat) (node : Node) : Sys :=
  { sys with nodes := update sys.nodes inum node }

def Sys.setFile (sys : Sys) (f : FileSlot) (file : File) : Sys :=
  { sys with ftable := update sys.ftable f file }

def Sys.setProc (sys : Sys) (p : Pid) (proc : Proc) : Sys :=
  { sys with procs := update sys.procs p proc }

def Sys.setFd (sys : Sys) (p : Pid) (fd : Fd) (file : Option FileSlot) : Sys :=
  sys.setProc p { sys.procs p with ofile := update (sys.procs p).ofile fd file }

def Sys.setCwd (sys : Sys) (p : Pid) (cwd : Option CacheSlot) : Sys :=
  sys.setProc p { sys.procs p with cwd := cwd }

def Sys.setState (sys : Sys) (p : Pid) (state : ProcState) : Sys :=
  sys.setProc p { sys.procs p with state := state }

inductive Op where
  | iget (inum : Nat)
  /-- `idup(proc->cwd)` -/
  | idupCwd
  | ilock (ip : CacheSlot)
  | iunlock (ip : CacheSlot)
  /-- The first critical section of `iput`. The answer says whether it was the last
  reference to an inode without links. -/
  | iputRef (ip : CacheSlot)
  /-- `itrunc(ip); ip->type = 0; iupdate(ip)` in `iput`. -/
  | iputTrunc (ip : CacheSlot)
  /-- The second critical section of `iput`. -/
  | iputFreed (ip : CacheSlot)
  /-- The fields and the contents of a locked inode. -/
  | readInode (ip : CacheSlot)
  /-- A change to a locked inode, and `iupdate(ip)`. -/
  | writeInode (ip : CacheSlot) (node : Node)
  /-- `ip->inum` -/
  | inum (ip : CacheSlot)
  | ialloc (type : BitVec 16)
  | filealloc
  | fdalloc (f : FileSlot)
  /-- The fields that `sys_open` sets last. -/
  | openFile (f : FileSlot) (ip : CacheSlot) (readable writable : Bool)
  | filedup (f : FileSlot)
  /-- The critical section of `fileclose`. The answer is the inode to put. -/
  | filecloseRef (f : FileSlot)
  /-- The fields of an open file. -/
  | readFile (f : FileSlot)
  /-- `f->off += r` -/
  | advanceOff (f : FileSlot) (r : Nat)
  /-- `proc->ofile[fd]` -/
  | ofile (fd : Fd)
  /-- `f = proc->ofile[fd]`, and `proc->ofile[fd] = 0` if it is not null. -/
  | takeFd (fd : Fd)
  /-- `argfd(0, 0, &f)` and `fdalloc(f)`, in `sys_dup`. -/
  | fdallocDup (fd : Fd)
  /-- `proc->cwd` -/
  | cwd
  | setCwd (ip : CacheSlot)
  | allocproc
  /-- `if(proc->ofile[i]) np->ofile[i] = filedup(proc->ofile[i])` -/
  | forkFile (np : Pid) (fd : Fd)
  /-- `np->cwd = idup(proc->cwd)` -/
  | forkCwd (np : Pid)
  | setRunnable (np : Pid)
  | setUnused (np : Pid)
  /-- `if(proc == initproc) panic("init exiting")` -/
  | exitBegin
  /-- `proc->cwd = 0`, and `proc->state = ZOMBIE`. -/
  | exitEnd
  /-- `wait` finds the zombie. -/
  | reap (p : Pid)
  | panic (reason : Stop)

abbrev Op.Answer : Op → Type
  | .iget _ | .idupCwd | .cwd => CacheSlot
  | .iputRef _ => Bool
  | .readInode _ => Node
  | .inum _ | .ialloc _ => Nat
  | .filealloc | .ofile _ | .takeFd _ => Option FileSlot
  | .fdalloc _ => Option Fd
  | .filecloseRef _ => Option CacheSlot
  | .readFile _ => File
  | .fdallocDup _ => Option (FileSlot × Fd)
  | .allocproc => Option Pid
  | .reap _ => Bool
  | .panic _ => Empty
  | _ => Unit

/-- `choice` is the free inode that the scan of `ialloc` comes upon; which one it is
differs between the two layouts. -/
def handle (choice : Nat) (p : Pid) (op : Op) (sys : Sys) : Except Stop (op.Answer × Sys) :=
  match op with
  | .iget inum =>
    match (List.finRange ninode).find? fun ip =>
        decide (0 < (sys.icache ip).ref ∧ (sys.icache ip).inum = inum) with
    | some ip =>
      let inode := sys.icache ip
      .ok (ip, sys.setInode ip { inode with ref := inode.ref + 1 })
    | none =>
      match (List.finRange ninode).find? fun ip => decide ((sys.icache ip).ref = 0) with
      | none => .error .noCacheEntries
      | some empty =>
        .ok (empty, sys.setInode empty
          { sys.icache empty with inum := inum, ref := 1, busy := false, valid := false })
  | .idupCwd =>
    match (sys.procs p).cwd with
    | none => .error .noCwd
    | some ip =>
      let inode := sys.icache ip
      .ok (ip, sys.setInode ip { inode with ref := inode.ref + 1 })
  | .ilock ip =>
    let inode := sys.icache ip
    if inode.ref < 1 then .error .ilock
    else if inode.busy then .error .asleep
    else if inode.valid then .ok ((), sys.setInode ip { inode with busy := true })
    else
      let din := sys.nodes inode.inum
      if din.type = 0 then .error .noType
      else .ok ((), sys.setInode ip { inode with busy := true, valid := true, din := din })
  | .iunlock ip =>
    let inode := sys.icache ip
    if inode.busy = false ∨ inode.ref < 1 then .error .iunlock
    else .ok ((), sys.setInode ip { inode with busy := false })
  | .iputRef ip =>
    let inode := sys.icache ip
    if inode.ref = 1 ∧ inode.valid = true ∧ inode.din.nlink = 0 then
      if inode.busy then .error .iputBusy
      else .ok (true, sys.setInode ip { inode with busy := true })
    else .ok (false, sys.setInode ip { inode with ref := inode.ref - 1 })
  | .iputTrunc ip =>
    let inode := sys.icache ip
    let din := { inode.din with type := 0, entries := [], bytes := [] }
    .ok ((), (sys.setInode ip { inode with din := din }).setNode inode.inum din)
  | .iputFreed ip =>
    let inode := sys.icache ip
    .ok ((), sys.setInode ip
      { inode with busy := false, valid := false, ref := inode.ref - 1 })
  | .readInode ip => .ok ((sys.icache ip).din, sys)
  | .writeInode ip node =>
    let inode := sys.icache ip
    .ok ((), (sys.setInode ip { inode with din := node }).setNode inode.inum node)
  | .inum ip => .ok ((sys.icache ip).inum, sys)
  | .ialloc type =>
    if 0 < choice ∧ (sys.nodes choice).type = 0 then
      .ok (choice, sys.setNode choice { Node.zero with type := type })
    else .error .noInodes
  | .filealloc =>
    match (List.finRange nfile).find? fun f => decide ((sys.ftable f).ref = 0) with
    | none => .ok (none, sys)
    | some f => .ok (some f, sys.setFile f { sys.ftable f with ref := 1 })
  | .fdalloc f =>
    match (List.finRange nofile).find? fun fd => decide ((sys.procs p).ofile fd = none) with
    | none => .ok (none, sys)
    | some fd => .ok (some fd, sys.setFd p fd (some f))
  | .openFile f ip readable writable =>
    .ok ((), sys.setFile f
      { sys.ftable f with ip := some ip, off := 0, readable := readable, writable := writable })
  | .filedup f =>
    let file := sys.ftable f
    if file.ref < 1 then .error .filedup
    else .ok ((), sys.setFile f { file with ref := file.ref + 1 })
  | .filecloseRef f =>
    let file := sys.ftable f
    if file.ref < 1 then .error .fileclose
    else if 0 < file.ref - 1 then .ok (none, sys.setFile f { file with ref := file.ref - 1 })
    else .ok (file.ip, sys.setFile f { file with ref := 0, ip := none })
  | .readFile f => .ok (sys.ftable f, sys)
  | .advanceOff f r =>
    let file := sys.ftable f
    .ok ((), sys.setFile f { file with off := (file.off + r) % 2 ^ 32 })
  | .ofile fd => .ok ((sys.procs p).ofile fd, sys)
  | .takeFd fd =>
    match (sys.procs p).ofile fd with
    | none => .ok (none, sys)
    | some f => .ok (some f, sys.setFd p fd none)
  | .fdallocDup fd =>
    match (sys.procs p).ofile fd with
    | none => .ok (none, sys)
    | some f =>
      match (List.finRange nofile).find? fun fd =>
          decide ((sys.procs p).ofile fd = none) with
      | none => .ok (none, sys)
      | some free => .ok (some (f, free), sys.setFd p free (some f))
  | .cwd =>
    match (sys.procs p).cwd with
    | none => .error .noCwd
    | some ip => .ok (ip, sys)
  | .setCwd ip => .ok ((), sys.setCwd p (some ip))
  | .allocproc =>
    match (List.finRange nproc).find? fun np => decide ((sys.procs np).state = .unused) with
    | none => .ok (none, sys)
    | some np => .ok (some np, sys.setState np .embryo)
  | .forkFile np fd =>
    match (sys.procs p).ofile fd with
    | none => .ok ((), sys)
    | some f =>
      let file := sys.ftable f
      if file.ref < 1 then .error .filedup
      else .ok ((), (sys.setFile f { file with ref := file.ref + 1 }).setFd np fd (some f))
  | .forkCwd np =>
    match (sys.procs p).cwd with
    | none => .error .noCwd
    | some ip =>
      let inode := sys.icache ip
      .ok ((), (sys.setInode ip { inode with ref := inode.ref + 1 }).setCwd np (some ip))
  | .setRunnable np => .ok ((), sys.setState np .runnable)
  | .setUnused np => .ok ((), sys.setState np .unused)
  | .exitBegin => if p = sys.initproc then .error .initExiting else .ok ((), sys)
  | .exitEnd => .ok ((), (sys.setCwd p none).setState p .zombie)
  | .reap q =>
    if (sys.procs q).state = .zombie then .ok (true, sys.setState q .unused)
    else .ok (false, sys)
  | .panic reason => .error reason

abbrev Prog := Program Op Op.Answer

def iget (inum : Nat) : Prog CacheSlot := perform (Op.iget inum)

def ilock (ip : CacheSlot) : Prog Unit := perform (Op.ilock ip)

def iunlock (ip : CacheSlot) : Prog Unit := perform (Op.iunlock ip)

def readInode (ip : CacheSlot) : Prog Node := perform (Op.readInode ip)

def writeInode (ip : CacheSlot) (node : Node) : Prog Unit := perform (Op.writeInode ip node)

def inum (ip : CacheSlot) : Prog Nat := perform (Op.inum ip)

def panic {α : Type} (reason : Stop) : Prog α := .act (.panic reason) Empty.elim

def iput (ip : CacheSlot) : Prog Unit :=
  .act (.iputRef ip) fun (last : Bool) =>
    if last then .act (.iputTrunc ip) fun _ => perform (Op.iputFreed ip) else pure ()

def iunlockput (ip : CacheSlot) : Prog Unit := do
  iunlock ip
  iput ip

def isNamed (name : Name) (de : Dirent) : Bool := de.inum ≠ 0 ∧ de.name = name

def dirlookup (dp : CacheSlot) (name : Name) : Prog (Option (CacheSlot × Nat)) := do
  let node ← readInode dp
  if node.type ≠ tDir then panic .notDir
  else
    match node.entries.findIdx? (isNamed name) with
    | none => pure none
    | some k => do
      let ip ← iget (node.entries.getD k ⟨0, []⟩).inum
      pure (some (ip, k))

/-- The entries with one more: at the first empty one, or behind the last. -/
def addEntry (entries : List Dirent) (de : Dirent) : List Dirent :=
  match entries.findIdx? fun de => de.inum = 0 with
  | some k => entries.set k de
  | none => entries ++ [de]

def addEnd (entries : List Dirent) : Nat :=
  direntSize * (((entries.findIdx? fun de => de.inum = 0).getD entries.length) + 1)

def dirlink (dp : CacheSlot) (name : Name) (inum : Nat) : Prog Bool := do
  match ← dirlookup dp name with
  | some (ip, _) => do
    iput ip
    pure false
  | none => do
    let node ← readInode dp
    if maxfile * bsize < addEnd node.entries then panic .dirlink
    else do
      writeInode dp { node with entries := addEntry node.entries ⟨inum, name⟩ }
      pure true

def slash : Byte := 47

/-- The next path element and the rest of the path behind it. -/
def skipelem (path : List Byte) : Option (Name × List Byte) :=
  let path := path.dropWhile (· == slash)
  if path.isEmpty then none
  else
    let name := (path.takeWhile (· != slash)).take dirsiz
    some (name, (path.dropWhile (· != slash)).dropWhile (· == slash))

def elementsFrom : Nat → List Byte → List Name
  | 0, _ => []
  | fuel + 1, path =>
    match skipelem path with
    | none => []
    | some (name, rest) => name :: elementsFrom fuel rest

def elements (path : List Byte) : List Name := elementsFrom path.length path

/-- The loop of `namex`; `last` is what `name` holds before. -/
def namexLoop (nameiparent : Bool) : List Name → CacheSlot → Name → Prog (Option (CacheSlot × Name))
  | [], ip, last =>
    if nameiparent then do
      iput ip
      pure none
    else pure (some (ip, last))
  | name :: rest, ip, _ => do
    ilock ip
    let node ← readInode ip
    if node.type ≠ tDir then do
      iunlockput ip
      pure none
    else if nameiparent ∧ rest.isEmpty then do
      iunlock ip
      pure (some (ip, name))
    else
      match ← dirlookup ip name with
      | none => do
        iunlockput ip
        pure none
      | some (next, _) => do
        iunlockput ip
        namexLoop nameiparent rest next name

def namex (path : List Byte) (nameiparent : Bool) : Prog (Option (CacheSlot × Name)) := do
  let ip ← if path.head? = some slash then iget rootino else perform Op.idupCwd
  namexLoop nameiparent (elements path) ip []

def namei (path : List Byte) : Prog (Option CacheSlot) := do
  match ← namex path false with
  | none => pure none
  | some (ip, _) => pure (some ip)

def nameiparent (path : List Byte) : Prog (Option (CacheSlot × Name)) := namex path true

def dot : Name := [46]
def dotdot : Name := [46, 46]

/-- The part of `create` from `ialloc` to the first `iupdate`. -/
def createInode (type major minor : BitVec 16) : Prog CacheSlot := do
  let number ← perform (Op.ialloc type)
  let ip ← iget number
  ilock ip
  let node ← readInode ip
  writeInode ip { node with major := major, minor := minor, nlink := 1 }
  pure ip

/-- `dp->nlink++` and the entries "." and "..". -/
def createDots (dp ip : CacheSlot) : Prog Unit := do
  let node ← readInode dp
  writeInode dp { node with nlink := node.nlink + 1 }
  if ← dirlink ip dot (← inum ip) then
    if ← dirlink ip dotdot (← inum dp) then pure () else panic .createDots
  else panic .createDots

/-- The part of `create` for a name that is not in the directory. -/
def createNew (dp : CacheSlot) (name : Name) (type major minor : BitVec 16) :
    Prog (Option CacheSlot) := do
  let ip ← createInode type major minor
  (if type = tDir then createDots dp ip else pure () : Prog Unit)
  if ← dirlink dp name (← inum ip) then do
    iunlockput dp
    pure (some ip)
  else panic .createDirlink

def create (path : List Byte) (type major minor : BitVec 16) : Prog (Option CacheSlot) := do
  match ← nameiparent path with
  | none => pure none
  | some (dp, name) => do
    ilock dp
    match ← dirlookup dp name with
    | some (ip, _) => do
      iunlockput dp
      ilock ip
      let node ← readInode ip
      if type = tFile ∧ node.type = tFile then pure (some ip)
      else do
        iunlockput ip
        pure none
    | none => createNew dp name type major minor

def updateNlink (ip : CacheSlot) (f : BitVec 16 → BitVec 16) : Prog Unit := do
  let node ← readInode ip
  writeInode ip { node with nlink := f node.nlink }

def sysLink (old new : List Byte) : Prog Int := do
  match ← namei old with
  | none => pure (-1)
  | some ip => do
    ilock ip
    let node ← readInode ip
    if node.type = tDir then do
      iunlockput ip
      pure (-1)
    else do
      updateNlink ip (· + 1)
      iunlock ip
      match ← nameiparent new with
      | none => bad ip
      | some (dp, name) => do
        ilock dp
        if ← dirlink dp name (← inum ip) then do
          iunlockput dp
          iput ip
          pure 0
        else do
          iunlockput dp
          bad ip
where
  bad (ip : CacheSlot) : Prog Int := do
    ilock ip
    updateNlink ip (· - 1)
    iunlockput ip
    pure (-1)

def isdirempty (entries : List Dirent) : Bool := (entries.drop 2).all fun de => de.inum = 0

def sysUnlink (path : List Byte) : Prog Int := do
  match ← nameiparent path with
  | none => pure (-1)
  | some (dp, name) => do
    ilock dp
    if name = dot ∨ name = dotdot then bad dp
    else
      match ← dirlookup dp name with
      | none => bad dp
      | some (ip, k) => do
        ilock ip
        let node ← readInode ip
        if node.nlink.toInt < 1 then panic .unlinkNlink
        else if node.type = tDir ∧ ¬ isdirempty node.entries then do
          iunlockput ip
          bad dp
        else if maxfile * bsize < direntSize * (k + 1) then panic .unlinkWritei
        else do
          let parent ← readInode dp
          writeInode dp { parent with entries := parent.entries.set k ⟨0, []⟩ }
          (if node.type = tDir then updateNlink dp (· - 1) else pure () : Prog Unit)
          iunlockput dp
          updateNlink ip (· - 1)
          iunlockput ip
          pure 0
where
  bad (dp : CacheSlot) : Prog Int := do
    iunlockput dp
    pure (-1)

/-- `sys_mkdir` and `sys_mknod` behind their arguments. -/
def makeInode (path : List Byte) (type major minor : BitVec 16) : Prog Int := do
  match ← create path type major minor with
  | none => pure (-1)
  | some ip => do
    iunlockput ip
    pure 0

def sysMkdir (path : List Byte) : Prog Int := makeInode path tDir 0 0

def sysMknod (path : List Byte) (major minor : BitVec 16) : Prog Int :=
  makeInode path tDev major minor

def sysChdir (path : List Byte) : Prog Int := do
  match ← namei path with
  | none => pure (-1)
  | some ip => do
    ilock ip
    let node ← readInode ip
    if node.type ≠ tDir then do
      iunlockput ip
      pure (-1)
    else do
      iunlock ip
      iput (← perform Op.cwd)
      perform (Op.setCwd ip)
      pure 0

def fileclose (f : FileSlot) : Prog Unit :=
  .act (.filecloseRef f) fun (last : Option CacheSlot) =>
    match last with
    | none => pure ()
    | some ip => iput ip

def oRdonly : Nat := 0
def oWronly : Nat := 1
def oRdwr : Nat := 2
def oCreate : Nat := 0x200

def openInode (path : List Byte) (omode : Nat) : Prog (Option CacheSlot) := do
  if omode &&& oCreate ≠ 0 then create path tFile 0 0
  else
    match ← namei path with
    | none => pure none
    | some ip => do
      ilock ip
      let node ← readInode ip
      if node.type = tDir ∧ omode ≠ oRdonly then do
        iunlockput ip
        pure none
      else pure (some ip)

def sysOpen (path : List Byte) (omode : Nat) : Prog Int := do
  match ← openInode path omode with
  | none => pure (-1)
  | some ip =>
    .act .filealloc fun (file : Option FileSlot) =>
      match file with
      | none => do
        iunlockput ip
        pure (-1)
      | some f =>
        .act (.fdalloc f) fun (descriptor : Option Fd) =>
          match descriptor with
          | none => do
            fileclose f
            iunlockput ip
            pure (-1)
          | some fd => do
            iunlock ip
            perform (Op.openFile f ip (omode &&& oWronly = 0)
              (omode &&& oWronly ≠ 0 ∨ omode &&& oRdwr ≠ 0))
            pure fd

/-- `argfd`, up to the look at `proc->ofile`. -/
def argfd (fd : Int) : Option Fd :=
  if range : 0 ≤ fd ∧ fd < nofile then some ⟨fd.toNat, by omega⟩ else none

def sysClose (fd : Int) : Prog Int :=
  match argfd fd with
  | none => pure (-1)
  | some fd =>
    .act (.takeFd fd) fun (file : Option FileSlot) =>
      match file with
      | none => pure (-1)
      | some f => do
        fileclose f
        pure 0

def sysDup (fd : Int) : Prog Int :=
  match argfd fd with
  | none => pure (-1)
  | some fd =>
    .act (.fdallocDup fd) fun (result : Option (FileSlot × Fd)) =>
      match result with
      | none => pure (-1)
      | some (f, free) => do
        perform (Op.filedup f)
        pure free

def writei (node : Node) (off : Nat) (src : List Byte) : Option Node :=
  if node.bytes.length < off ∨ 2 ^ 32 ≤ off + src.length then none
  else if maxfile * bsize < off + src.length then none
  else some { node with bytes := overwrite node.bytes off src }

/-- The loop of `filewrite` on the bytes still to be written: whether it writes them all. -/
def writeLoop (f : FileSlot) (ip : CacheSlot) : Nat → List Byte → Prog Bool
  | 0, bytes => pure bytes.isEmpty
  | fuel + 1, bytes =>
    if bytes.isEmpty then pure true
    else do
      let chunk := bytes.take maxChunk
      ilock ip
      let file ← (perform (Op.readFile f) : Prog File)
      let node ← readInode ip
      if node.type ≠ tFile then panic .notRegular
      else
        match writei node file.off chunk with
        | none => do
          iunlock ip
          pure false
        | some after => do
          writeInode ip after
          perform (Op.advanceOff f chunk.length)
          iunlock ip
          writeLoop f ip fuel (bytes.drop maxChunk)

/-- `data` is what the process has at its pointer. -/
def filewrite (f : FileSlot) (data : Nat → Byte) (n : Int) : Prog Int := do
  let file ← (perform (Op.readFile f) : Prog File)
  if file.writable = false then pure (-1)
  else
    match file.ip with
    | none => panic .filewrite
    | some ip => do
      let bytes := (List.range n.toNat).map data
      let all ← writeLoop f ip bytes.length bytes
      pure (if all ∧ 0 ≤ n then n else -1)

/-- `valid` says whether the pointer and the length are good arguments. -/
def sysWrite (fd : Int) (valid : Bool) (data : Nat → Byte) (n : Int) : Prog Int :=
  match argfd fd with
  | none => pure (-1)
  | some fd =>
    .act (.ofile fd) fun (file : Option FileSlot) =>
      match file with
      | none => pure (-1)
      | some f => if valid then filewrite f data n else pure (-1)

/-- `loads` says whether the file is a program that can be loaded. -/
def exec (path : List Byte) (loads : Node → Bool) : Prog Int := do
  match ← namei path with
  | none => pure (-1)
  | some ip => do
    ilock ip
    let node ← readInode ip
    iunlockput ip
    pure (if loads node then 0 else -1)

/-- `copied` says whether the address space could be copied. -/
def fork (copied : Bool) : Prog Int :=
  .act .allocproc fun (child : Option Pid) =>
    match child with
    | none => pure (-1)
    | some np =>
      if copied then do
        (List.finRange nofile).forM fun fd => perform (Op.forkFile np fd)
        perform (Op.forkCwd np)
        perform (Op.setRunnable np)
        pure np
      else do
        perform (Op.setUnused np)
        pure (-1)

def closeFd (fd : Fd) : Prog Unit :=
  .act (.takeFd fd) fun (file : Option FileSlot) =>
    match file with
    | none => pure ()
    | some f => fileclose f

def exit : Prog Int := do
  perform Op.exitBegin
  (List.finRange nofile).forM closeFd
  iput (← perform Op.cwd)
  perform Op.exitEnd
  pure 0

def wait (child : Pid) : Prog Int :=
  .act (.reap child) fun (found : Bool) => pure (if found then child else -1)

/-- A path argument is `none` when the pointer is bad. -/
inductive Call where
  | openFile (path : Option (List Byte)) (omode : Nat)
  | close (fd : Int)
  | dup (fd : Int)
  | link (old new : Option (List Byte))
  | unlink (path : Option (List Byte))
  | mkdir (path : Option (List Byte))
  | mknod (path : Option (List Byte)) (major minor : BitVec 16)
  | chdir (path : Option (List Byte))
  | write (fd : Int) (valid : Bool) (data : Nat → Byte) (n : Int)
  | exec (path : Option (List Byte)) (loads : Node → Bool)
  | fork (copied : Bool)
  | exit
  | wait (child : Pid)

def withPath (path : Option (List Byte)) (next : List Byte → Prog Int) : Prog Int :=
  match path with
  | none => pure (-1)
  | some path => next path

def body : Call → Prog Int
  | .openFile path omode => withPath path fun path => sysOpen path omode
  | .close fd => sysClose fd
  | .dup fd => sysDup fd
  | .link old new => withPath old fun old => withPath new fun new => sysLink old new
  | .unlink path => withPath path sysUnlink
  | .mkdir path => withPath path sysMkdir
  | .mknod path major minor => withPath path fun path => sysMknod path major minor
  | .chdir path => withPath path sysChdir
  | .write fd valid data n => sysWrite fd valid data n
  | .exec path loads => withPath path fun path => exec path loads
  | .fork copied => fork copied
  | .exit => exit
  | .wait child => wait child

end Xv6Hacks.FileCalls
