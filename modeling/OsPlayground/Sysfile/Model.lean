import OsPlayground.File.Model
import OsPlayground.Fs.Model

/-!
# System calls on files

The system calls of `sysfile.c` that take or drop references, with the inode cache and the path names
of `fs.c`, `fork`, `exec` and `exit`, over the file table and the bytes of the disk.

* `Sys`: the disk, `icache`, `ftable` with the descriptors, the current directories, the pipes.
* `iget`, `idup`, `ilock`, `iunlock`, `iput`: the inode cache.
* `dirlookup`, `dirlink`, `skipelem`, `namex`, `create`: directories and path names.
* `SysEvent`, `sysStep`: the system calls, one after the other.

A computation ends early in a panic, or when it waits for a sleep-lock that it holds itself.
-/

namespace OsPlayground

namespace Sysfile

open Lib
open Fs (Store T_DIR T_FILE T_DEV)

abbrev NINODE : ℕ := 50
abbrev ROOTDEV : ℕ := 1
abbrev ROOTINO : ℕ := 1
abbrev DIRSIZ : ℕ := 14
abbrev O_CREATE : ℕ := 512

/-- An entry of `icache`. While it is valid, `mem inum` of the store has its copy of the inode. -/
structure Entry where
  dev : ℕ := 0
  inum : ℕ := 0
  ref : ℕ := 0
  locked : Bool := false

/-- `readopen` and `writeopen` of a `struct pipe`. -/
structure Ends where
  readopen : Bool := false
  writeopen : Bool := false

/-- The file system, `icache`, `ftable`, and what each process has open. -/
structure Sys where
  fs : Store
  icache : ℕ → Entry
  files : Files
  /-- `p->cwd`; a process that is not in use has none. -/
  cwd : Slot → Option ℕ
  /-- The pipes by page. In a page that is no pipe both ends are closed. -/
  pipe : ℕ → Ends

/-- How a call ends when it does not return. -/
inductive Halt
  | panic (s : String)
  | sleep
  deriving DecidableEq

abbrev SysM := StateT Sys (Except Halt)

namespace Sys

/-- The inode of an entry. -/
def ip (s : Sys) (e : ℕ) : Fs.Inode := s.fs.ip (s.icache e).inum

/-- Assign to fields of `icache.inode[e]`. -/
def setEntry (e : ℕ) (g : Entry → Entry) (s : Sys) : Sys :=
  { s with icache := Function.update s.icache e (g (s.icache e)) }

/-- The pipe in `page` becomes `g` of it. -/
def setPipe (page : ℕ) (g : Ends → Ends) (s : Sys) : Sys :=
  { s with pipe := Function.update s.pipe page (g (s.pipe page)) }

/-- The working directory of process `p` becomes `o`. -/
def setCwd (p : Slot) (o : Option ℕ) (s : Sys) : Sys :=
  { s with cwd := Function.update s.cwd p o }

/-- `ftable` becomes `t`. -/
def setFiles (t : Files) (s : Sys) : Sys := { s with files := t }

/-- The file system becomes `fs`. -/
def setFs (fs : Store) (s : Sys) : Sys := { s with fs := fs }

end Sys

variable {α : Type}

/-- A function of the inode layer. -/
def onStore (m : Store → Except String (α × Store)) : SysM α := fun s =>
  match m s.fs with
  | .ok (a, fs) => .ok (a, s.setFs fs)
  | .error msg => .error (.panic msg)

/-- The same for one that returns nothing. -/
def inStore (m : Store → Except String Store) : SysM Unit :=
  onStore fun fs => (m fs).map fun fs => ((), fs)

/-- A function of the file table. -/
def onFiles (m : Files → Except String Files) : SysM Unit := fun s =>
  match m s.files with
  | .ok t => .ok ((), s.setFiles t)
  | .error msg => .error (.panic msg)

/-! ## The inode cache -/

/-- The loops of `iget`: an entry for the inode, or an empty one. -/
def findEntry (dev inum : ℕ) (s : Sys) : Option ℕ :=
  (List.range NINODE).find? fun e =>
    0 < (s.icache e).ref ∧ (s.icache e).dev = dev ∧ (s.icache e).inum = inum

/-- The first unused entry, the `empty` of `iget`. -/
def emptyEntry (s : Sys) : Option ℕ := (List.range NINODE).find? fun e => (s.icache e).ref = 0

/-- `iget`. -/
def iget (dev inum : ℕ) : SysM ℕ := do
  let s ← get
  match findEntry dev inum s with
  | some e =>
    modify (Sys.setEntry e fun r => { r with ref := r.ref + 1 })
    return e
  | none =>
    match emptyEntry s with
    | none => throw (.panic "iget: no inodes")
    | some e =>
      modify (Sys.setEntry e fun r => { r with dev := dev, inum := inum, ref := 1 })
      inStore fun fs => .ok (fs.evict inum)
      return e

/-- `idup`. -/
def idup (e : ℕ) : SysM ℕ := do
  modify (Sys.setEntry e fun r => { r with ref := r.ref + 1 })
  return e

/-- `acquiresleep` of the lock of an entry. -/
def acquireInode (e : ℕ) : SysM Unit := do
  let s ← get
  if (s.icache e).locked then throw .sleep
  else modify (Sys.setEntry e fun r => { r with locked := true })

/-- `releasesleep(&ip->lock)`. -/
def releaseInode (e : ℕ) : SysM Unit :=
  modify (Sys.setEntry e fun r => { r with locked := false })

/-- `ilock`. -/
def ilock (e : ℕ) : SysM Unit := do
  let s ← get
  if (s.icache e).ref < 1 then throw (.panic "ilock")
  else do
    acquireInode e
    inStore (Fs.ilock (s.icache e).inum)

/-- `iunlock`. -/
def iunlock (e : ℕ) : SysM Unit := do
  let s ← get
  if (s.icache e).locked = false ∨ (s.icache e).ref < 1 then throw (.panic "iunlock")
  else releaseInode e

/-- `iput`. -/
def iput (e : ℕ) : SysM Unit := do
  acquireInode e
  let s ← get
  inStore (Fs.iput (s.icache e).inum (s.icache e).ref)
  releaseInode e
  modify (Sys.setEntry e fun r => { r with ref := r.ref - 1 })

/-- `iunlockput`. -/
def iunlockput (e : ℕ) : SysM Unit := do
  iunlock e
  iput e

/-- Assign to fields of `*ip` and call `iupdate`. -/
def updateInode (e : ℕ) (f : Fs.Inode → Fs.Inode) : SysM Unit := do
  let s ← get
  inStore fun fs => .ok (Fs.iupdate (s.icache e).inum (fs.setIp (s.icache e).inum f))

/-- `ip->nlink++` and `ip->nlink--` on a `short`. -/
def incNlink (r : Fs.Inode) : Fs.Inode := { r with nlink := (r.nlink + 1) % 2 ^ 16 }

/-- `ip->nlink--`. -/
def decNlink (r : Fs.Inode) : Fs.Inode := { r with nlink := (r.nlink + 2 ^ 16 - 1) % 2 ^ 16 }

/-! ## Directories -/

/-- A string in an array of `DIRSIZ` characters, as `strncmp` reads it. -/
def nameOf (s : List ℕ) : List ℕ := (s.take DIRSIZ).takeWhile (· ≠ 0)

/-- `namecmp(s, t) == 0`. -/
def namecmp (s t : List ℕ) : Bool := nameOf s = nameOf t

/-- Read the entry at `off` of the directory `inum`, or end in the panic `msg`. -/
def readDirent (inum off : ℕ) (msg : String) (fs : Store) : Except String (List ℕ × Store) :=
  (Fs.readi inum off 16 fs).bind fun x =>
    match x.1 with
    | .read data => if data.length = 16 then .ok (data, x.2) else .error msg
    | _ => .error msg

/-- `de.inum` and `de.name`. -/
def direntInum (de : List ℕ) : ℕ := de.getD 0 0 + 256 * de.getD 1 0

/-- `de.name`. -/
def direntName (de : List ℕ) : List ℕ := de.drop 2

/-- `struct dirent` with the name copied by `strncpy`. -/
def dirent (name : List ℕ) (inum : ℕ) : List ℕ :=
  [byteOf inum 0, byteOf inum 1] ++ nameOf name ++ List.replicate (DIRSIZ - (nameOf name).length) 0

/-- The offsets of the entries of a directory. -/
def direntOffsets (size : ℕ) : List ℕ := (List.range ((size + 15) / 16)).map (16 * ·)

/-- The loop of `dirlookup`: the offset and the inode number of the entry. -/
def lookupLoop (inum : ℕ) (name : List ℕ) :
    List ℕ → Store → Except String (Option (ℕ × ℕ) × Store)
  | [], fs => .ok (none, fs)
  | off :: offs, fs =>
    (readDirent inum off "dirlookup read" fs).bind fun x =>
      if direntInum x.1 ≠ 0 ∧ namecmp name (direntName x.1) then
        .ok (some (off, direntInum x.1), x.2)
      else lookupLoop inum name offs x.2

/-- The loops that look for an entry that is empty or not; without one, the offset behind the last. -/
def findDirent (inum : ℕ) (msg : String) (empty : Bool) :
    List ℕ → ℕ → Store → Except String (ℕ × Store)
  | [], last, fs => .ok (last, fs)
  | off :: offs, last, fs =>
    (readDirent inum off msg fs).bind fun x =>
      if decide (direntInum x.1 = 0) = empty then .ok (off, x.2)
      else findDirent inum msg empty offs last x.2

/-- Write an entry, or end in the panic `msg`. -/
def writeDirent (inum off : ℕ) (de : List ℕ) (msg : String) (fs : Store) : Except String Store :=
  (Fs.writei inum off de fs).bind fun x =>
    if x.1 = .written 16 then .ok x.2 else .error msg

/-- `dirlookup`, with the entry of `icache` and the offset. -/
def dirlookup (dp : ℕ) (name : List ℕ) : SysM (Option (ℕ × ℕ)) := do
  let s ← get
  if (s.ip dp).type ≠ T_DIR then throw (.panic "dirlookup not DIR")
  else
    match ← onStore (lookupLoop (s.icache dp).inum name (direntOffsets (s.ip dp).size)) with
    | none => return none
    | some x => do
      let e ← iget (s.icache dp).dev x.2
      return some (e, x.1)

/-- `dirlink`; `false` stands for -1. -/
def dirlink (dp : ℕ) (name : List ℕ) (inum : ℕ) : SysM Bool := do
  match ← dirlookup dp name with
  | some x => do
    iput x.1
    return false
  | none => do
    let s ← get
    let dir := (s.icache dp).inum
    let offs := direntOffsets (s.ip dp).size
    let off ← onStore (findDirent dir "dirlink read" true offs (16 * offs.length))
    inStore (writeDirent dir off (dirent name inum) "dirlink")
    return true

/-- `isdirempty`. -/
def isdirempty (dp : ℕ) : SysM Bool := do
  let s ← get
  let offs := (direntOffsets (s.ip dp).size).drop 2
  let stop := (s.ip dp).size + 16
  let off ← onStore (findDirent (s.icache dp).inum "isdirempty: readi" false offs stop)
  return off = stop

/-! ## Path names -/

/-- The character `/`. -/
abbrev SLASH : ℕ := 47

/-- `skipelem`: the next element of the path and the rest. -/
def skipelem (path : List ℕ) : Option (List ℕ × List ℕ) :=
  let path := path.dropWhile (· = SLASH)
  if path = [] then none
  else some ((path.takeWhile (· ≠ SLASH)).take DIRSIZ,
    (path.dropWhile (· ≠ SLASH)).dropWhile (· = SLASH))

/-- `namex` after its loop. -/
def namexEnd (nameiparent : Bool) (ip : ℕ) : SysM (Option (ℕ × List ℕ)) :=
  if nameiparent then do
    iput ip
    return none
  else return some (ip, [])

/-- The loop of `namex`. Every round takes at least one character, so `path.length` rounds are
enough. -/
def namexLoop (nameiparent : Bool) : ℕ → ℕ → List ℕ → SysM (Option (ℕ × List ℕ))
  | 0, ip, _ => namexEnd nameiparent ip
  | fuel + 1, ip, path =>
    match skipelem path with
    | none => namexEnd nameiparent ip
    | some x => do
      ilock ip
      let s ← get
      if (s.ip ip).type ≠ T_DIR then do
        iunlockput ip
        return none
      else if nameiparent ∧ x.2 = [] then do
        iunlock ip
        return some (ip, x.1)
      else
        match ← dirlookup ip x.1 with
        | none => do
          iunlockput ip
          return none
        | some next => do
          iunlockput ip
          namexLoop nameiparent fuel next.1 x.2

/-- `namex` in the process `p`. -/
def namex (p : Slot) (path : List ℕ) (nameiparent : Bool) : SysM (Option (ℕ × List ℕ)) := do
  if path.head? = some SLASH then do
    let ip ← iget ROOTDEV ROOTINO
    namexLoop nameiparent path.length ip path
  else do
    let s ← get
    match s.cwd p with
    | none => throw (.panic "trap")
    | some cwd => do
      let ip ← idup cwd
      namexLoop nameiparent path.length ip path

/-- `namei`. -/
def namei (p : Slot) (path : List ℕ) : SysM (Option ℕ) := do
  let r ← namex p path false
  return r.map Prod.fst

/-- `nameiparent`. -/
def nameiparent (p : Slot) (path : List ℕ) : SysM (Option (ℕ × List ℕ)) := namex p path true

/-- `.` and `..`. -/
def dot : List ℕ := [46]

/-- `..` -/
def dotdot : List ℕ := [46, 46]

/-- `ialloc`. -/
def ialloc (dev type : ℕ) : SysM ℕ := do
  let inum ← onStore (Fs.ialloc type)
  iget dev inum

/-- `dirlink` that must not fail. -/
def dirlinkOrPanic (dp : ℕ) (name : List ℕ) (inum : ℕ) (msg : String) : SysM Unit := do
  if ← dirlink dp name inum then return ()
  else throw (.panic msg)

/-- The entries `.` and `..` that `create` makes in a new directory. -/
def createDots (type ip dp : ℕ) : SysM Unit := do
  if type = T_DIR then do
    updateInode dp incNlink
    let s ← get
    dirlinkOrPanic ip dot (s.icache ip).inum "create dots"
    dirlinkOrPanic ip dotdot (s.icache dp).inum "create dots"
  else return ()

/-- `create`, once the name is known to be new. -/
def createNew (dp : ℕ) (name : List ℕ) (type major minor : ℕ) : SysM ℕ := do
  let s ← get
  let ip ← ialloc (s.icache dp).dev type
  ilock ip
  updateInode ip fun r => { r with major := major, minor := minor, nlink := 1 }
  createDots type ip dp
  let s ← get
  dirlinkOrPanic dp name (s.icache ip).inum "create: dirlink"
  iunlockput dp
  return ip

/-- `create`. -/
def create (p : Slot) (path : List ℕ) (type major minor : ℕ) : SysM (Option ℕ) := do
  match ← nameiparent p path with
  | none => return none
  | some (dp, name) => do
    ilock dp
    match ← dirlookup dp name with
    | some (ip, _) => do
      iunlockput dp
      ilock ip
      let s ← get
      if type = T_FILE ∧ (s.ip ip).type = T_FILE then return some ip
      else do
        iunlockput ip
        return none
    | none => do
      let ip ← createNew dp name type major minor
      return some ip

end Sysfile

end OsPlayground
