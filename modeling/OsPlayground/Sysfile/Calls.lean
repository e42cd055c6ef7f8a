import OsPlayground.Lib.Run
import OsPlayground.Sysfile.Model

/-!
# The system calls

* `fileclose` with what it closes, `fdalloc`, `argfd`.
* `sysOpen`, `sysMemo`, `sysPipe`, `sysDup`, `sysClose`, `sysLink`, `sysUnlink`, `sysMkdir`,
  `sysMknod`, `sysChdir`, `exec`, `fork`, `exit`: the system calls, with what they return.
* `SysEvent`, `sysStep`: any process makes any call; one that panics or never returns ends the run.
-/

namespace OsPlayground

namespace Sysfile

open Fs (Store T_DIR T_FILE T_DEV)

/-! ## Files -/

/-- `pipeclose`, without the wakeups. A page whose two ends are closed is freed. -/
def pipeclose (page : ℕ) (writable : Bool) : SysM Unit :=
  modify (Sys.setPipe page fun r =>
    if writable then { r with writeopen := false } else { r with readopen := false })

/-- What `fileclose` does with the last reference to `ff`. -/
def closeLast (ff : File) : SysM Unit :=
  match ff.type with
  | .pipe => pipeclose ff.pipe ff.writable
  | .inode => iput ff.ip
  | _ => return ()

/-- `fileclose`. -/
def fileclose (f : Fin NFILE) : SysM Unit := do
  let s ← get
  onFiles (OsPlayground.fileclose f)
  if 1 < (s.files.file f).ref then return ()
  else closeLast (s.files.file f)

/-- `filealloc`. -/
def filealloc : SysM (Option (Fin NFILE)) := do
  let s ← get
  match OsPlayground.filealloc s.files with
  | none => return none
  | some x => do
    modify (Sys.setFiles x.2)
    return some x.1

/-- `p->ofile[fd] = o`. -/
def setOfile (p : Slot) (fd : Fin NOFILE) (o : Option (Fin NFILE)) : SysM Unit :=
  modify fun s => s.setFiles (s.files.setOfile p fd o)

/-- Assign to fields of `*f`. -/
def setFile (f : Fin NFILE) (g : File → File) : SysM Unit :=
  modify fun s => s.setFiles (s.files.setFile f g)

/-- `fdalloc` in the process `p`. -/
def fdalloc (p : Slot) (f : Fin NFILE) : SysM (Option (Fin NOFILE)) := do
  let s ← get
  match (List.finRange NOFILE).find? fun fd => s.files.ofile p fd = none with
  | none => return none
  | some fd => do
    setOfile p fd (some f)
    return some fd

/-- `argfd` on an argument that `argint` has fetched or not. -/
def argfd (p : Slot) (fd : Option ℤ) (s : Sys) : Option (Fin NOFILE × Fin NFILE) :=
  fd.bind fun fd =>
    if h : 0 ≤ fd ∧ fd.toNat < NOFILE then
      (s.files.ofile p ⟨fd.toNat, h.2⟩).map fun f => (⟨fd.toNat, h.2⟩, f)
    else none

/-! ## System calls on descriptors -/

/-- `sys_dup`. -/
def sysDup (p : Slot) (fd : Option ℤ) : SysM ℤ := do
  let s ← get
  match argfd p fd s with
  | none => return -1
  | some x =>
    match ← fdalloc p x.2 with
    | none => return -1
    | some fd => do
      onFiles (filedup x.2)
      return fd

/-- `sys_close`. -/
def sysClose (p : Slot) (fd : Option ℤ) : SysM ℤ := do
  let s ← get
  match argfd p fd s with
  | none => return -1
  | some x => do
    setOfile p x.1 none
    fileclose x.2
    return 0

/-- `sys_memo`, as far as the file goes. -/
def sysMemo (p : Slot) : SysM ℤ := do
  match ← filealloc with
  | none => return -1
  | some f =>
    match ← fdalloc p f with
    | none => do
      fileclose f
      return -1
    | some fd => do
      setFile f fun r => { r with type := .memo, off := 0, readable := true, writable := true }
      return fd

/-- `pipealloc`; `page` is what `kalloc` returns. -/
def pipealloc (page : Option ℕ) : SysM (Option (Fin NFILE × Fin NFILE)) := do
  match ← filealloc with
  | none => return none
  | some f0 =>
    match ← filealloc with
    | none => do
      fileclose f0
      return none
    | some f1 =>
      match page with
      | none => do
        fileclose f0
        fileclose f1
        return none
      | some page => do
        modify (Sys.setPipe page fun _ => { readopen := true, writeopen := true })
        setFile f0 (pipeEnd page false)
        setFile f1 (pipeEnd page true)
        return some (f0, f1)

/-- `sys_pipe`; `ok` is that `argptr` has succeeded. -/
def sysPipe (p : Slot) (ok : Bool) (page : Option ℕ) : SysM ℤ := do
  if ok = false then return -1
  else
    match ← pipealloc page with
    | none => return -1
    | some x =>
      match ← fdalloc p x.1 with
      | none => do
        fileclose x.1
        fileclose x.2
        return -1
      | some fd0 =>
        match ← fdalloc p x.2 with
        | none => do
          setOfile p fd0 none
          fileclose x.1
          fileclose x.2
          return -1
        | some _ => return 0

/-! ## System calls on path names

An argument is `none` if it could not be fetched. -/

/-- The second half of `sys_open`, with the inode locked. -/
def openInode (p : Slot) (ip omode : ℕ) : SysM ℤ := do
  match ← filealloc with
  | none => do
    iunlockput ip
    return -1
  | some f =>
    match ← fdalloc p f with
    | none => do
      fileclose f
      iunlockput ip
      return -1
    | some fd => do
      iunlock ip
      setFile f fun r => { r with
        type := .inode
        ip := ip
        off := 0
        readable := omode &&& O_WRONLY = 0
        writable := omode &&& O_WRONLY ≠ 0 ∨ omode &&& O_RDWR ≠ 0 }
      return fd

/-- `sys_open`. -/
def sysOpen (p : Slot) (path : Option (List ℕ)) (omode : ℕ) : SysM ℤ := do
  match path with
  | none => return -1
  | some path =>
    if omode &&& O_CREATE ≠ 0 then
      match ← create p path T_FILE 0 0 with
      | none => return -1
      | some ip => openInode p ip omode
    else
      match ← namei p path with
      | none => return -1
      | some ip => do
        ilock ip
        let s ← get
        if (s.ip ip).type = T_DIR ∧ omode ≠ 0 then do
          iunlockput ip
          return -1
        else openInode p ip omode

/-- `sys_mkdir` and `sys_mknod` once the arguments are there. -/
def makeNode (p : Slot) (path : List ℕ) (type major minor : ℕ) : SysM ℤ := do
  match ← create p path type major minor with
  | none => return -1
  | some ip => do
    iunlockput ip
    return 0

/-- `sys_mkdir`. -/
def sysMkdir (p : Slot) (path : Option (List ℕ)) : SysM ℤ :=
  match path with
  | none => return -1
  | some path => makeNode p path T_DIR 0 0

/-- `sys_mknod`. -/
def sysMknod (p : Slot) (path : Option (List ℕ)) (major minor : ℕ) : SysM ℤ :=
  match path with
  | none => return -1
  | some path => makeNode p path T_DEV (major % 2 ^ 16) (minor % 2 ^ 16)

/-- The label `bad` of `sys_link`. -/
def linkBad (ip : ℕ) : SysM ℤ := do
  ilock ip
  updateInode ip decNlink
  iunlockput ip
  return -1

/-- `sys_link`. -/
def sysLink (p : Slot) (old new : Option (List ℕ)) : SysM ℤ := do
  match old, new with
  | some old, some new =>
    match ← namei p old with
    | none => return -1
    | some ip => do
      ilock ip
      let s ← get
      if (s.ip ip).type = T_DIR then do
        iunlockput ip
        return -1
      else do
        updateInode ip incNlink
        iunlock ip
        match ← nameiparent p new with
        | none => linkBad ip
        | some x => do
          ilock x.1
          let s ← get
          if (s.icache x.1).dev ≠ (s.icache ip).dev then do
            iunlockput x.1
            linkBad ip
          else
            if ← dirlink x.1 x.2 (s.icache ip).inum then do
              iunlockput x.1
              iput ip
              return 0
            else do
              iunlockput x.1
              linkBad ip
  | _, _ => return -1

/-- The parent of a directory loses the link from `..`. -/
def unlinkParent (dp ip : ℕ) : SysM Unit := do
  let s ← get
  if (s.ip ip).type = T_DIR then updateInode dp decNlink
  else return ()

/-- The end of `sys_unlink`: the entry at `off` of `dp` names `ip`. -/
def unlinkEntry (dp ip off : ℕ) : SysM ℤ := do
  let s ← get
  inStore (writeDirent (s.icache dp).inum off (List.replicate 16 0) "unlink: writei")
  unlinkParent dp ip
  iunlockput dp
  updateInode ip decNlink
  iunlockput ip
  return 0

/-- `sys_unlink`. -/
def sysUnlink (p : Slot) (path : Option (List ℕ)) : SysM ℤ := do
  match path with
  | none => return -1
  | some path =>
    match ← nameiparent p path with
    | none => return -1
    | some d => do
      ilock d.1
      if namecmp d.2 dot ∨ namecmp d.2 dotdot then do
        iunlockput d.1
        return -1
      else
        match ← dirlookup d.1 d.2 with
        | none => do
          iunlockput d.1
          return -1
        | some x => do
          ilock x.1
          let s ← get
          if (s.ip x.1).nlink = 0 ∨ 2 ^ 15 ≤ (s.ip x.1).nlink then
            throw (.panic "unlink: nlink < 1")
          else if (s.ip x.1).type = T_DIR then
            if ← isdirempty x.1 then unlinkEntry d.1 x.1 x.2
            else do
              iunlockput x.1
              iunlockput d.1
              return -1
          else unlinkEntry d.1 x.1 x.2

/-- `sys_chdir`. -/
def sysChdir (p : Slot) (path : Option (List ℕ)) : SysM ℤ := do
  match path with
  | none => return -1
  | some path =>
    match ← namei p path with
    | none => return -1
    | some ip => do
      ilock ip
      let s ← get
      if (s.ip ip).type ≠ T_DIR then do
        iunlockput ip
        return -1
      else do
        iunlock ip
        let s ← get
        match s.cwd p with
        | none => throw (.panic "trap")
        | some cwd => do
          iput cwd
          modify (Sys.setCwd p (some ip))
          return 0

/-- The calls of `readi` that `exec` makes. -/
def execReads (ip : ℕ) : List (ℕ × ℕ) → SysM Unit
  | [] => return ()
  | x :: reads => do
    let s ← get
    let _ ← onStore (Fs.readi (s.icache ip).inum x.1 x.2)
    execReads ip reads

/-- `exec`. What it reads of the program, and whether it fails, is given: every way out of it that
has locked the program unlocks and puts it once. -/
def exec (p : Slot) (path : Option (List ℕ)) (reads : List (ℕ × ℕ)) (ok : Bool) : SysM ℤ := do
  match path with
  | none => return -1
  | some path =>
    match ← namei p path with
    | none => return -1
    | some ip => do
      ilock ip
      execReads ip reads
      iunlockput ip
      return if ok then 0 else -1

/-! ## Processes -/

/-- `initproc`: `userinit` takes the first slot. -/
def initproc : Slot := 0

/-- The loop of `fork` over the descriptors. -/
def forkLoop (p np : Slot) : List (Fin NOFILE) → SysM Unit
  | [] => return ()
  | fd :: fds => do
    let s ← get
    match s.files.ofile p fd with
    | none => forkLoop p np fds
    | some f => do
      onFiles (filedup f)
      setOfile np fd (some f)
      forkLoop p np fds

/-- `fork` into the slot `np`, or without one. -/
def fork (p : Slot) (np : Option Slot) : SysM ℤ := do
  match np with
  | none => return -1
  | some np => do
    forkLoop p np (List.finRange NOFILE)
    let s ← get
    match s.cwd p with
    | none => throw (.panic "trap")
    | some cwd => do
      let ip ← idup cwd
      modify (Sys.setCwd np (some ip))
      return 0

/-- The loop of `exit` over the descriptors. -/
def exitLoop (p : Slot) : List (Fin NOFILE) → SysM Unit
  | [] => return ()
  | fd :: fds => do
    let s ← get
    match s.files.ofile p fd with
    | none => exitLoop p fds
    | some f => do
      fileclose f
      setOfile p fd none
      exitLoop p fds

/-- `exit`, up to the scheduler. -/
def exit (p : Slot) : SysM ℤ := do
  if p = initproc then throw (.panic "init exiting")
  else do
    exitLoop p (List.finRange NOFILE)
    let s ← get
    match s.cwd p with
    | none => throw (.panic "trap")
    | some cwd => do
      iput cwd
      modify (Sys.setCwd p none)
      return 0

/-! ## Runs -/

/-- A system call on files and directories, with what it finds in memory. -/
inductive SysCall
  | open (path : Option (List ℕ)) (omode : ℕ)
  | memo
  | pipe (ok : Bool) (page : Option ℕ)
  | dup (fd : Option ℤ)
  | close (fd : Option ℤ)
  | fork (np : Option Slot)
  | exec (path : Option (List ℕ)) (reads : List (ℕ × ℕ)) (ok : Bool)
  | chdir (path : Option (List ℕ))
  | link (old new : Option (List ℕ))
  | unlink (path : Option (List ℕ))
  | mkdir (path : Option (List ℕ))
  | mknod (path : Option (List ℕ)) (major minor : ℕ)
  | exit

/-- The call in the process `p`. -/
def SysCall.run (p : Slot) : SysCall → SysM ℤ
  | .open path omode => sysOpen p path omode
  | .memo => sysMemo p
  | .pipe ok page => sysPipe p ok page
  | .dup fd => sysDup p fd
  | .close fd => sysClose p fd
  | .fork np => Sysfile.fork p np
  | .exec path reads ok => Sysfile.exec p path reads ok
  | .chdir path => sysChdir p path
  | .link old new => sysLink p old new
  | .unlink path => sysUnlink p path
  | .mkdir path => sysMkdir p path
  | .mknod path major minor => sysMknod p path major minor
  | .exit => Sysfile.exit p

/-- `kalloc` does not return a page that is a pipe, and `allocproc` a slot that is in use. -/
def SysCall.Ok (s : Sys) : SysCall → Prop
  | .pipe _ (some page) => (s.pipe page).readopen = false ∧ (s.pipe page).writeopen = false
  | .fork (some np) => s.cwd np = none
  | _ => True

instance (s : Sys) (c : SysCall) : Decidable (c.Ok s) := by
  unfold SysCall.Ok
  split <;> infer_instance

/-- The process `p` makes the call `c`. There is no next state if the call does not return: it
panics, or waits for ever. -/
def sysStep (e : Slot × SysCall) (s : Sys) : Option Sys :=
  if s.cwd e.1 ≠ none ∧ e.2.Ok s then
    match e.2.run e.1 s with
    | .ok x => some x.2
    | .error _ => none
  else none

/-- The tables after `userinit` has looked up `/` for the first process, on any disk. -/
def sysBoot (fs : Store) : Sys where
  fs := fs.evict ROOTINO
  icache e := if e = 0 then { dev := ROOTDEV, inum := ROOTINO, ref := 1 } else {}
  files := filesBoot
  cwd p := if p = initproc then some 0 else none
  pipe _ := {}

end Sysfile

end OsPlayground
