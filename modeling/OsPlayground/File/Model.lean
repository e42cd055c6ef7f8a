import OsPlayground.Lib.Sums
import OsPlayground.Proc.Model

/-!
# The open-file table

`file.c` and the system calls of `sysfile.c` on descriptors: `ftable` with every process's `ofile`.
What a file is connected to (pipes, inodes, the memo) is modelled elsewhere.

* `File`, `Files`: the table and the descriptors.
* `filealloc`, `filedup`, `fileclose`, `fdalloc`: the reference counts.
* `fileread`, `filewrite`, `filestat`: which operation a file type is dispatched to.
* `FileEvent`, `fileStep`: every system call on descriptors, `fork` and `exit`.
-/

namespace OsPlayground

abbrev NFILE : ℕ := 100
abbrev O_WRONLY : ℕ := 1
abbrev O_RDWR : ℕ := 2

/-- `FD_NONE`, `FD_PIPE`, `FD_MEMO`, `FD_INODE`. -/
inductive FileType
  | none | pipe | memo | inode
  deriving DecidableEq, Repr

/-- `struct file`. -/
structure File where
  type : FileType := .none
  ref : ℕ := 0
  readable : Bool := false
  writable : Bool := false
  pipe : ℕ := 0
  ip : ℕ := 0
  off : ℕ := 0

/-- `ftable`, and the open files of every process. -/
structure Files where
  file : Fin NFILE → File
  /-- `p->ofile[fd]`. -/
  ofile : Slot → Fin NOFILE → Option (Fin NFILE)
  panicked : Option String

/-- The tables as `main` finds them: all zero. -/
def filesBoot : Files := ⟨fun _ => {}, fun _ _ => none, none⟩

namespace Files

/-- Assign to fields of `*f`. -/
def setFile (t : Files) (f : Fin NFILE) (g : File → File) : Files :=
  { t with file := Function.update t.file f (g (t.file f)) }

/-- `p->ofile[fd] = o`. -/
def setOfile (t : Files) (p : Slot) (fd : Fin NOFILE) (o : Option (Fin NFILE)) : Files :=
  { t with ofile := Function.update t.ofile p (Function.update (t.ofile p) fd o) }

/-- `panic(s)`; nothing runs after it. -/
def panic (t : Files) (s : String) : Files := { t with panicked := some s }

end Files

/-! ## Reference counts -/

/-- `filealloc`. -/
def filealloc (t : Files) : Option (Fin NFILE × Files) :=
  ((List.finRange NFILE).find? fun f => (t.file f).ref = 0).map fun f =>
    (f, t.setFile f fun r => { r with ref := 1 })

/-- `filedup`. -/
def filedup (f : Fin NFILE) (t : Files) : Except String Files :=
  if (t.file f).ref < 1 then .error "filedup"
  else .ok (t.setFile f fun r => { r with ref := r.ref + 1 })

/-- `fileclose`, up to the release of `ftable.lock`. -/
def fileclose (f : Fin NFILE) (t : Files) : Except String Files :=
  if (t.file f).ref < 1 then .error "fileclose"
  else
    let t := t.setFile f fun r => { r with ref := r.ref - 1 }
    if 0 < (t.file f).ref then .ok t
    else .ok (t.setFile f fun r => { r with ref := 0, type := .none })

/-- `fdalloc` in the process `p`. -/
def fdallocFile (p : Slot) (f : Fin NFILE) (t : Files) : Option Files :=
  ((List.finRange NOFILE).find? fun fd => t.ofile p fd = none).map fun fd =>
    t.setOfile p fd (some f)

/-! ## Dispatch -/

/-- What `fileread` and `filewrite` call, or the panic they end in. -/
inductive FileOp
  | fail
  | pipe (pipe : ℕ)
  | memo
  | inode (ip off : ℕ)
  | panic (s : String)
  deriving DecidableEq

/-- `fileread`. -/
def fileread (r : File) : FileOp :=
  if r.readable = false then .fail
  else if r.type = .pipe then .pipe r.pipe
  else if r.type = .inode then .inode r.ip r.off
  else .panic "fileread"

/-- `filewrite`. -/
def filewrite (r : File) : FileOp :=
  if r.writable = false then .fail
  else if r.type = .pipe then .pipe r.pipe
  else if r.type = .memo then .memo
  else if r.type = .inode then .inode r.ip r.off
  else .panic "filewrite"

/-- `filestat`. -/
def filestat (r : File) : FileOp := if r.type = .inode then .inode r.ip r.off else .fail

/-- The offset moves by the `k` bytes that an inode took or gave. -/
def Files.dispatch (t : Files) (f : Fin NFILE) (k : ℕ) : FileOp → Files
  | .inode _ _ => t.setFile f fun r => { r with off := r.off + k }
  | .panic s => t.panic s
  | _ => t

/-! ## System calls -/

/-- A system call that uses the file table. -/
inductive FileEvent
  /-- `sys_open`, once the inode `ip` is there. -/
  | open (p : Slot) (omode ip : ℕ)
  /-- `sys_pipe`; `page` is what `kalloc` returned. -/
  | pipe (p : Slot) (page : Option ℕ)
  | memo (p : Slot)
  | dup (p : Slot) (fd : Fin NOFILE)
  /-- `fork` into the slot `np`, which has no open files. -/
  | fork (p np : Slot)
  | close (p : Slot) (fd : Fin NOFILE)
  | exit (p : Slot)
  /-- The last argument is the number of bytes that an inode moved. -/
  | read (p : Slot) (fd : Fin NOFILE) (k : ℕ)
  | write (p : Slot) (fd : Fin NOFILE) (k : ℕ)
  | fstat (p : Slot) (fd : Fin NOFILE)

/-- The failure path of a call that could not install the file `f`. -/
def closeOrPanic (f : Fin NFILE) (t : Files) : Files :=
  match fileclose f t with
  | .ok t => t
  | .error s => t.panic s

/-- Allocate a file, install it and fill it in, as `sys_open` and `sys_memo` do. -/
def openFile (p : Slot) (g : File → File) (t : Files) : Files :=
  match filealloc t with
  | none => t
  | some (f, t) =>
    match fdallocFile p f t with
    | none => closeOrPanic f t
    | some t => t.setFile f g

/-- `sys_open`. -/
def sysOpen (p : Slot) (omode ip : ℕ) : Files → Files :=
  openFile p fun r => { r with
    type := .inode
    ip := ip
    off := 0
    readable := omode &&& O_WRONLY = 0
    writable := omode &&& O_WRONLY ≠ 0 ∨ omode &&& O_RDWR ≠ 0 }

/-- `sys_memo`, as far as the file goes. -/
def sysMemoFile (p : Slot) : Files → Files :=
  openFile p fun r => { r with type := .memo, off := 0, readable := true, writable := true }

/-- The end of a pipe as `pipealloc` fills it in. -/
def pipeEnd (page : ℕ) (writable : Bool) (r : File) : File :=
  { r with type := .pipe, readable := !writable, writable := writable, pipe := page }

/-- `pipealloc`. -/
def pipealloc (page : Option ℕ) (t : Files) : Files × Option (Fin NFILE × Fin NFILE) :=
  match filealloc t with
  | none => (t, none)
  | some (f0, t) =>
    match filealloc t with
    | none => (closeOrPanic f0 t, none)
    | some (f1, t) =>
      match page with
      | none => (closeOrPanic f1 (closeOrPanic f0 t), none)
      | some page =>
        ((t.setFile f0 (pipeEnd page false)).setFile f1 (pipeEnd page true), some (f0, f1))

/-- `sys_pipe`. If the second descriptor is missing, the first, at `fd0`, is taken back. -/
def sysPipe (p : Slot) (page : Option ℕ) (t : Files) : Files :=
  match pipealloc page t with
  | (t, none) => t
  | (t, some (rf, wf)) =>
    match (List.finRange NOFILE).find? fun fd => t.ofile p fd = none with
    | none => closeOrPanic wf (closeOrPanic rf t)
    | some fd0 =>
      match fdallocFile p wf (t.setOfile p fd0 (some rf)) with
      | none =>
        closeOrPanic wf (closeOrPanic rf ((t.setOfile p fd0 (some rf)).setOfile p fd0 none))
      | some t => t

/-- `sys_dup`. -/
def sysDup (p : Slot) (fd : Fin NOFILE) (t : Files) : Files :=
  match t.ofile p fd with
  | none => t
  | some f =>
    match fdallocFile p f t with
    | none => t
    | some t =>
      match filedup f t with
      | .ok t => t
      | .error s => t.panic s

/-- The loop of `fork` over the descriptors `fds`. -/
def forkFiles (p np : Slot) : List (Fin NOFILE) → Files → Files
  | [], t => t
  | fd :: fds, t =>
    match t.ofile p fd with
    | none => forkFiles p np fds t
    | some f =>
      match filedup f t with
      | .error s => t.panic s
      | .ok t => forkFiles p np fds (t.setOfile np fd (some f))

/-- The loop of `exit` over the descriptors `fds`. -/
def exitFiles (p : Slot) : List (Fin NOFILE) → Files → Files
  | [], t => t
  | fd :: fds, t =>
    match t.ofile p fd with
    | none => exitFiles p fds t
    | some f =>
      match fileclose f t with
      | .error s => t.panic s
      | .ok t => exitFiles p fds (t.setOfile p fd none)

/-- `sys_close`. -/
def sysClose (p : Slot) (fd : Fin NOFILE) (t : Files) : Files :=
  match t.ofile p fd with
  | none => t
  | some f => closeOrPanic f (t.setOfile p fd none)

/-- `sys_read`, `sys_write` and `sys_fstat` after `argfd`. -/
def sysFileOp (op : File → FileOp) (p : Slot) (fd : Fin NOFILE) (k : ℕ) (t : Files) : Files :=
  match t.ofile p fd with
  | none => t
  | some f => t.dispatch f k (op (t.file f))

/-- One system call, or `none` if it cannot happen: the kernel has panicked, or `fork` would use a
slot with open files. -/
def fileStep (e : FileEvent) (t : Files) : Option Files :=
  if t.panicked.isSome then none
  else
    match e with
    | .open p omode ip => some (sysOpen p omode ip t)
    | .pipe p page => some (sysPipe p page t)
    | .memo p => some (sysMemoFile p t)
    | .dup p fd => some (sysDup p fd t)
    | .fork p np =>
      if p ≠ np ∧ ∀ fd, t.ofile np fd = none then some (forkFiles p np (List.finRange NOFILE) t)
      else none
    | .close p fd => some (sysClose p fd t)
    | .exit p => some (exitFiles p (List.finRange NOFILE) t)
    | .read p fd k => some (sysFileOp fileread p fd k t)
    | .write p fd k => some (sysFileOp filewrite p fd k t)
    | .fstat p fd => some (sysFileOp filestat p fd 0 t)

end OsPlayground
