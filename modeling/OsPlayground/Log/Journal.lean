import OsPlayground.Lib.Volume
import OsPlayground.Log.Crash
import OsPlayground.Log.Reserve

/-!
# The log on the disk

`log.c` with the disk and the buffer cache: any number of processes log blocks, buffers are recycled,
`commit` and `recover_from_log` write block after block, and the machine may crash before any write.

* `Journal`, `JournalEvent`, `journalStep`: the system.
* `Journal.volume`: what it stands for. The contents are those of the cache, and what is kept is what a
  recovery would give.
* `shows`: the steps at which the contents change, or at which what is kept does.
-/

namespace OsPlayground

open Lib

namespace Log

instance (start b : ℕ) : Decidable (Outside start b) := inferInstanceAs (Decidable (_ ∨ _))

/-- The log, the disk with the buffer cache, and what is left to write. -/
structure Journal (n : ℕ) where
  sys : LogSys n
  bufs : Bufs
  /-- `B_DIRTY` of the buffer of a block. -/
  dirty : ℕ → Bool
  /-- The writes that are left of `commit` or of `recover_from_log`. -/
  todo : List Write
  /-- `initlog` has returned. -/
  up : Bool

/-- A step of an operation, of the commit or of recovery, or a crash. -/
inductive JournalEvent (n : ℕ)
  | begin_op (p : Fin n)
  /-- The process has changed the data of the block, and calls `log_write`. -/
  | log_write (p : Fin n) (blockno : ℕ) (data : Block)
  | append (p : Fin n)
  | end_op (p : Fin n)
  /-- The next write of `commit` or of `recover_from_log` reaches the disk. -/
  | write
  /-- `commit` returns. -/
  | commit (p : Fin n)
  | finish (p : Fin n)
  /-- `bget` recycles the buffer of the block. -/
  | recycle (blockno : ℕ)
  | crash
  /-- `initlog` returns. -/
  | initlog

variable {n : ℕ}

/-- The start of `initlog` on the disk `d`. -/
def reboot (n start : ℕ) (d : Disk) : Journal n where
  sys := logStart n
  bufs := Bufs.boot d
  dirty _ := false
  todo := recover_from_log start (Bufs.boot d).cache
  up := false

/-- The next of the writes; `ideintr` clears `B_DIRTY`. -/
def Journal.write (s : Journal n) : Option (Journal n) :=
  match s.todo with
  | [] => none
  | w :: todo => some { s with
      bufs := w.perform s.bufs
      dirty := Function.update s.dirty w.blockno false
      todo }

/-- A step of the log, while the system runs. -/
def Journal.onLog (e : LogEvent n) (s : Journal n) : Option (Journal n) :=
  if s.up = true then (logStep e s.sys).map fun sys => { s with sys } else none

/-- `p` goes on with the section of `log_write` that sets `B_DIRTY`. -/
def Journal.pin (p : Fin n) (s : Journal n) : Journal n :=
  match s.sys.pc p with
  | .logging b => { s with dirty := Function.update s.dirty b true }
  | _ => s

/-- `p` goes on with `commit`, if it is the last in `end_op`. -/
def Journal.commits (start : ℕ) (p : Fin n) (s : Journal n) : Journal n :=
  if s.sys.pc p = .commit then { s with todo := commit start s.sys.lh } else s

/-- One step. -/
def journalStep (start : ℕ) (e : JournalEvent n) (s : Journal n) : Option (Journal n) :=
  match e with
  | .begin_op p => s.onLog (.begin_op p)
  | .log_write p b data => (s.onLog (.log_write p b)).map fun s =>
      { s with bufs := { s.bufs with cache := Function.update s.bufs.cache b data } }
  | .append p => (s.pin p).onLog (.append p)
  | .end_op p => (s.onLog (.end_op p)).map (Journal.commits start p)
  | .write => s.write
  | .commit p => if s.todo = [] then s.onLog (.commit p) else none
  | .finish p => s.onLog (.finish p)
  | .recycle b =>
    -- neither used by a process nor `B_DIRTY`; a panic stops the kernel
    if s.sys.panicked = none ∧ s.dirty b = false ∧ ∀ p, s.sys.pc p ≠ .logging b then
      some { s with bufs := { s.bufs with cache := Function.update s.bufs.cache b (s.bufs.disk b) } }
    else none
  | .crash => some (reboot n start s.bufs.disk)
  | .initlog => if s.up = false ∧ s.todo = [] then some { s with up := true } else none

/-- What the file system promises: it logs no block of the log, and `log_write` adds a block only where
the log has one left for it. -/
def Proper (start : ℕ) (s : Journal n) (e : JournalEvent n) (_ : Journal n) : Prop :=
  match e with
  | .log_write _ b _ => Outside start b
  | .append p => ∀ b, s.sys.pc p = .logging b → b ∈ s.sys.lh ∨ s.sys.lh.length < LOGSIZE - 1
  | _ => True

/-- The volume: the blocks outside the log. -/
def Journal.volume (start : ℕ) (s : Journal n) : Volume {b // Outside start b} Block where
  kept b := recover start s.bufs.disk b
  current b := if s.up = true then s.bufs.cache b else recover start s.bufs.disk b
  busy := s.sys.outstanding

/-- What a step shows. The contents are kept when `write_head` writes the header of a transaction. -/
def shows (start : ℕ) (e : JournalEvent n) (s : Journal n) :
    Option (VolumeEvent {b // Outside start b} Block) :=
  match e with
  | .begin_op _ =>
    if s.sys.committing = false ∧
      s.sys.lh.length + (s.sys.outstanding + 1) * MAXOPBLOCKS ≤ LOGSIZE then some .start else none
  | .log_write _ b data => if h : Outside start b then some (.write ⟨b, h⟩ data) else none
  | .end_op _ => some .stop
  | .write => if s.up = true ∧ s.todo.length = s.sys.lh.length + 2 then some .keep else none
  | .crash => some .crash
  | _ => none

end Log

end OsPlayground
