import Mathlib.Data.Fintype.Basic
import Mathlib.Data.List.FinRange
import OsPlayground.Lib.Circle
import OsPlayground.Lib.Run
import OsPlayground.Log.Model
import OsPlayground.Sync.Sleeplock

/-!
# The buffer cache

`bio.c`, with the parts of `ide.c` and `log.c` that write the fields of a buffer. Each section under
`bcache.lock`, under the lock of a buffer or under `idelock` is one step of a process.

* `Buf`, `Bcache`: the buffers, their list and the root device.
* `binit`, `bget`, `bread`, `bwrite`, `brelse`, `iderw`, `ideintr`, `log_write`: the functions.
* `BufEvent`, `bufStep`: what any number of processes can do.

A process uses the buffers that `bread` has given it and that it has not released. After it has
changed the data it calls `bwrite` or `log_write` before it calls `brelse`.
-/

namespace OsPlayground

namespace Bio

open Lib Log

/-- `NBUF`, `ROOTDEV` and `FSSIZE` of `param.h`. -/
abbrev NBUF : ℕ := MAXOPBLOCKS * 3
abbrev ROOTDEV : ℕ := 1
abbrev FSSIZE : ℕ := 1000

/-- A `struct buf`. Its `prev` and `next` are in `Bcache.links`. -/
structure Buf where
  /-- `B_VALID`. -/
  valid : Bool := false
  /-- `B_DIRTY`. -/
  dirty : Bool := false
  dev : ℕ := 0
  blockno : ℕ := 0
  lock : Sleeplock := {}
  refcnt : ℕ := 0
  data : Block := fun _ => 0

abbrev Index := Fin NBUF

/-- Where a process is. -/
inductive BufPc
  | running
  /-- In `acquiresleep` of `bget`. -/
  | waiting (b : Index) (blockno : ℕ)
  /-- In `iderw` of `bread`. -/
  | reading (b : Index) (blockno : ℕ)
  /-- In `iderw` of `bwrite`. -/
  | writing (b : Index)
  /-- In `brelse`, after `releasesleep`. -/
  | releasing (b : Index)
  deriving DecidableEq

/-- `bcache`, the disk behind it and where each process stands. -/
structure Bcache (n : ℕ) where
  buf : Index → Buf
  links : Links Index
  /-- The root device. -/
  disk : Disk
  /-- The buffer is on `idequeue`. -/
  queued : Index → Bool
  pc : Fin n → BufPc
  /-- History variable: what each block of the root device was last changed to. -/
  latest : Disk
  /-- History variable: the data was changed, and `bwrite` or `log_write` not called since. -/
  unwritten : Index → Bool
  /-- History variable: when the buffer was last released for good; `binit` counts as the first. -/
  freed : Index → ℕ
  clock : ℕ

/-- `for(b = bcache.buf; b < bcache.buf+NBUF; b++)`. -/
abbrev buffers : List Index := List.finRange NBUF

/-- The links after `binit`. -/
def binit : Links Index := buffers.foldl (fun k b => k.pushFront b) ⟨fun _ => none, fun _ => none⟩

/-- After `binit`, on a disk. -/
def bcacheStart (n : ℕ) (disk : Disk) : Bcache n where
  buf _ := {}
  links := binit
  disk := disk
  queued _ := false
  pc _ := .running
  latest := disk
  unwritten _ := false
  freed b := b
  clock := NBUF

/-- What happens next. -/
inductive BufEvent (n : ℕ)
  /-- `bread` up to `acquiresleep`. -/
  | bread (p : Fin n) (blockno : ℕ)
  /-- A round of the loop of `acquiresleep`, and what follows it. -/
  | acquiresleep (p : Fin n)
  /-- The disk has finished the request for the buffer. -/
  | ideintr (b : Index)
  /-- A round of the loop of `iderw`, and what follows it. -/
  | iderw (p : Fin n)
  /-- A process changes the data of a buffer. -/
  | modify (p : Fin n) (b : Index) (data : Block)
  | bwrite (p : Fin n) (b : Index)
  | log_write (p : Fin n) (b : Index)
  /-- `brelse` up to the end of `releasesleep`. -/
  | brelse (p : Fin n) (b : Index)
  /-- The rest of `brelse`. -/
  | unref (p : Fin n)

variable {n : ℕ}

namespace Bcache

/-- `p` goes on at `pc`. -/
def goto (p : Fin n) (pc : BufPc) (s : Bcache n) : Bcache n :=
  { s with pc := Function.update s.pc p pc }

/-- Assign to fields of a buffer. -/
def setBuf (b : Index) (f : Buf → Buf) (s : Bcache n) : Bcache n :=
  { s with buf := Function.update s.buf b (f (s.buf b)) }

/-- The process was given the buffer, is back from the call and has not released the buffer. -/
def Uses (s : Bcache n) (p : Fin n) (b : Index) : Prop :=
  s.pc p = .running ∧ (s.buf b).lock.pid = some p.val

instance (s : Bcache n) (p : Fin n) (b : Index) : Decidable (s.Uses p b) := instDecidableAnd

end Bcache

/-- The first loop of `bget`. -/
def cached (blockno : ℕ) (s : Bcache n) : Option Index :=
  Links.scan s.links.next (fun b => (s.buf b).dev = ROOTDEV ∧ (s.buf b).blockno = blockno) NBUF
    (s.links.next none)

/-- The second loop of `bget`. -/
def recycled (s : Bcache n) : Option Index :=
  Links.scan s.links.prev (fun b => (s.buf b).refcnt = 0 ∧ (s.buf b).dirty = false) NBUF
    (s.links.prev none)

/-- `bget` up to `acquiresleep`; `none` is `panic("bget: no buffers")`. -/
def bget (p : Fin n) (blockno : ℕ) (s : Bcache n) : Option (Bcache n) :=
  match cached blockno s with
  | some b => some ((s.setBuf b fun r => { r with refcnt := r.refcnt + 1 }).goto p
      (.waiting b blockno))
  | none =>
    (recycled s).map fun b => (s.setBuf b fun r => { r with
      dev := ROOTDEV, blockno := blockno, valid := false, dirty := false, refcnt := 1 }).goto p
        (.waiting b blockno)

/-- `iderw` up to the wait for the disk; the panics of its tests are `none`. -/
def iderw (b : Index) (s : Bcache n) : Option (Bcache n) :=
  if holdingsleep (s.buf b).lock = false ∨ ((s.buf b).valid ∧ (s.buf b).dirty = false) then none
  else some { s with queued := Function.update s.queued b true }

/-- `acquiresleep` takes the lock, and `bread` goes on. -/
def locked (p : Fin n) (b : Index) (blockno : ℕ) (s : Bcache n) : Option (Bcache n) :=
  let s := s.setBuf b fun r => { r with lock := ⟨true, some p.val⟩ }
  if (s.buf b).valid then some (s.goto p .running)
  else (iderw b s).map fun s => s.goto p (.reading b blockno)

/-- `ideintr`, for a disk without errors. -/
def ideintr (b : Index) (s : Bcache n) : Bcache n :=
  let r := s.buf b
  { s.setBuf b fun r => { r with
      data := if r.dirty then r.data else s.disk r.blockno, valid := true, dirty := false } with
    disk := if r.dirty then Function.update s.disk r.blockno r.data else s.disk
    queued := Function.update s.queued b false }

/-- `bwrite` up to the wait for the disk. -/
def bwrite (p : Fin n) (b : Index) (s : Bcache n) : Option (Bcache n) :=
  -- `panic("bwrite")`
  if holdingsleep (s.buf b).lock = false then none
  else (iderw b (s.setBuf b fun r => { r with dirty := true })).map fun s =>
    { s with unwritten := Function.update s.unwritten b false }.goto p (.writing b)

/-- What `log_write` does to the buffer. -/
def log_write (b : Index) (s : Bcache n) : Bcache n :=
  { s.setBuf b fun r => { r with dirty := true } with
    unwritten := Function.update s.unwritten b false }

/-- `brelse` up to the end of `releasesleep`. -/
def brelse (p : Fin n) (b : Index) (s : Bcache n) : Option (Bcache n) :=
  -- `panic("brelse")`
  if holdingsleep (s.buf b).lock = false then none
  else some ((s.setBuf b fun r => { r with lock := ⟨false, none⟩ }).goto p (.releasing b))

/-- The section of `brelse` under `bcache.lock`. -/
def unref (p : Fin n) (b : Index) (s : Bcache n) : Bcache n :=
  let s := s.setBuf b fun r => { r with refcnt := r.refcnt - 1 }
  let s := if (s.buf b).refcnt = 0 then
    { s with
      links := (s.links.unlink b).pushFront b
      freed := Function.update s.freed b s.clock
      clock := s.clock + 1 }
    else s
  s.goto p .running

/-- One step; `none` if the event cannot happen or the kernel panics. -/
def bufStep (e : BufEvent n) (s : Bcache n) : Option (Bcache n) :=
  match e with
  | .bread p blockno => if s.pc p = .running then bget p blockno s else none
  | .acquiresleep p =>
    match s.pc p with
    | .waiting b blockno => if (s.buf b).lock.locked then some s else locked p b blockno s
    | _ => none
  | .ideintr b =>
    -- a request for a block that does not exist panics when it is started
    if s.queued b ∧ (s.buf b).blockno < FSSIZE then some (ideintr b s) else none
  | .iderw p =>
    match s.pc p with
    | .reading b _ | .writing b =>
      if (s.buf b).valid ∧ (s.buf b).dirty = false then some (s.goto p .running) else some s
    | _ => none
  | .modify p b data =>
    if s.Uses p b then
      some { s.setBuf b fun r => { r with data := data } with
        latest := Function.update s.latest (s.buf b).blockno data
        unwritten := Function.update s.unwritten b true }
    else none
  | .bwrite p b => if s.Uses p b then bwrite p b s else none
  | .log_write p b => if s.Uses p b then some (log_write b s) else none
  | .brelse p b => if s.Uses p b ∧ s.unwritten b = false then brelse p b s else none
  | .unref p =>
    match s.pc p with
    | .releasing b => some (unref p b s)
    | _ => none

end Bio

end OsPlayground
