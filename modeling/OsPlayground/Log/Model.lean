import Mathlib.Data.List.Basic
import Mathlib.Logic.Function.Basic

/-!
# The log

`log.c`: the physical redo log of the file system.

* `Block`, `Disk`, `Bufs`: the disk and what `bread` gives.
* `write_log`, `write_head`, `install_trans`, `recover_from_log`, `commit`: the block writes that the
  functions make, in program order.
* `LogSys`, `logStep`: `begin_op`, `log_write` and `end_op` of any number of processes.

`log.lh` is the list of the first `log.lh.n` entries of `log.lh.block`; the others are never read.
-/

namespace OsPlayground

namespace Log

/-- `LOGSIZE` and `MAXOPBLOCKS` of `param.h`. -/
abbrev MAXOPBLOCKS : ℕ := 10
abbrev LOGSIZE : ℕ := MAXOPBLOCKS * 3

/-! ## Blocks -/

/-- The words of a block. -/
abbrev Block := ℕ → ℕ

abbrev Disk := ℕ → Block

/-- The disk, and what `bread` gives: the cached block, or the one on the disk. -/
structure Bufs where
  disk : Disk
  cache : Disk

/-- After a crash nothing is cached. -/
def Bufs.boot (d : Disk) : Bufs := ⟨d, d⟩

/-- `bwrite` on a block whose data is computed from other blocks. -/
structure Write where
  blockno : ℕ
  data : Disk → Block

/-- `bwrite` of the block of `w`. -/
def Write.perform (s : Bufs) (w : Write) : Bufs where
  disk := Function.update s.disk w.blockno (w.data s.cache)
  cache := Function.update s.cache w.blockno (w.data s.cache)

/-- Writes, one after the other. -/
def performs (ws : List Write) (s : Bufs) : Bufs := ws.foldl Write.perform s

/-- `hb->n = log.lh.n; hb->block[i] = log.lh.block[i]` for `i < log.lh.n`. -/
def putHead (lh : List ℕ) (hb : Block) : Block := fun w =>
  if w = 0 then lh.length else if w ≤ lh.length then lh.getD (w - 1) 0 else hb w

/-! ## Transactions on the disk -/

section Functions

variable (start : ℕ)

/-- `read_head`. -/
def read_head (cache : Disk) : List ℕ :=
  (List.range (cache start 0)).map fun i => cache start (i + 1)

/-- `write_head`. -/
def write_head (lh : List ℕ) : Write := ⟨start, fun cache => putHead lh (cache start)⟩

/-- `write_log` from `tail` on. -/
def write_log : ℕ → List ℕ → List Write
  | _, [] => []
  | tail, b :: lh => ⟨start + tail + 1, fun cache => cache b⟩ :: write_log (tail + 1) lh

/-- `install_trans` from `tail` on. -/
def install_trans : ℕ → List ℕ → List Write
  | _, [] => []
  | tail, b :: lh => ⟨b, fun cache => cache (start + tail + 1)⟩ :: install_trans (tail + 1) lh

/-- `recover_from_log`, from the header that it reads. -/
def recover_from_log (cache : Disk) : List Write :=
  install_trans start 0 (read_head start cache) ++ [write_head start []]

/-- `commit`. -/
def commit (lh : List ℕ) : List Write :=
  if 0 < lh.length then
    write_log start 0 lh ++ write_head start lh :: (install_trans start 0 lh ++ [write_head start []])
  else []

/-- The disk after a recovery that is cut after `k` writes. -/
def recoverCut (k : ℕ) (d : Disk) : Disk :=
  (performs ((recover_from_log start d).take k) (Bufs.boot d)).disk

/-- The disk after a complete recovery. -/
def recover (d : Disk) : Disk := (performs (recover_from_log start d) (Bufs.boot d)).disk

/-- The disk after a `commit` that is cut after `k` writes. -/
def commitCut (lh : List ℕ) (k : ℕ) (s : Bufs) : Disk := (performs ((commit start lh).take k) s).disk

end Functions

/-! ## Operations -/

/-- Where a process is. -/
inductive OpPc
  | outside
  /-- Between `begin_op` and `end_op`. -/
  | inside
  /-- In `log_write` on the block, between its tests and `acquire`. -/
  | logging (blockno : ℕ)
  /-- In `end_op`, before or after `commit`. -/
  | commit
  | committed
  deriving DecidableEq

/-- `log`, and where every operation stands. -/
structure LogSys (n : ℕ) where
  size : ℕ
  outstanding : ℕ
  committing : Bool
  lh : List ℕ
  pc : Fin n → OpPc
  /-- History variable: the distinct blocks that the operation has logged. -/
  logged : Fin n → List ℕ
  /-- History variable: the blocks logged since the last `commit`, in the order of the calls. -/
  calls : List ℕ
  panicked : Option String

/-- After `initlog` on a log that is laid out as `mkfs` does. -/
def logStart (n : ℕ) : LogSys n where
  size := LOGSIZE
  outstanding := 0
  committing := false
  lh := []
  pc _ := .outside
  logged _ := []
  calls := []
  panicked := none

/-- What happens next. -/
inductive LogEvent (n : ℕ)
  | begin_op (p : Fin n)
  | log_write (p : Fin n) (blockno : ℕ)
  | append (p : Fin n)
  | end_op (p : Fin n)
  | commit (p : Fin n)
  | finish (p : Fin n)

variable {n : ℕ}

namespace LogSys

/-- `p` goes on at `pc`. -/
def goto (p : Fin n) (pc : OpPc) (s : LogSys n) : LogSys n :=
  { s with pc := Function.update s.pc p pc }

/-- `panic(m)`; nothing runs after it. -/
def panic (m : String) (s : LogSys n) : LogSys n := { s with panicked := some m }

end LogSys

/-- The loop of `log_write`: absorption, or one more entry. -/
def absorb (b : ℕ) (lh : List ℕ) : List ℕ :=
  let i := lh.idxOf b
  if i = lh.length then lh ++ [b] else lh.set i b

/-- The distinct blocks of an operation after it has logged `b`. -/
def note (b : ℕ) (l : List ℕ) : List ℕ := if b ∈ l then l else b :: l

/-- A round of the loop of `begin_op`: it sleeps, or the operation starts. -/
def begin_op (p : Fin n) (s : LogSys n) : LogSys n :=
  if s.committing then s
  else if s.lh.length + (s.outstanding + 1) * MAXOPBLOCKS > LOGSIZE then s
  else { s with
    outstanding := s.outstanding + 1
    logged := Function.update s.logged p [] }.goto p .inside

/-- The tests of `log_write`. -/
def log_write (p : Fin n) (b : ℕ) (s : LogSys n) : LogSys n :=
  if s.lh.length ≥ LOGSIZE ∨ s.lh.length ≥ s.size - 1 then s.panic "too big a transaction"
  else if s.outstanding < 1 then s.panic "log_write outside of trans"
  else s.goto p (.logging b)

/-- The section of `log_write` under `log.lock`. -/
def append (p : Fin n) (b : ℕ) (s : LogSys n) : LogSys n :=
  { s with
    lh := absorb b s.lh
    logged := Function.update s.logged p (note b (s.logged p))
    calls := s.calls ++ [b] }.goto p .inside

/-- `end_op` up to `commit`. -/
def end_op (p : Fin n) (s : LogSys n) : LogSys n :=
  let s := { s with outstanding := s.outstanding - 1 }
  if s.committing then s.panic "log.committing"
  else if s.outstanding = 0 then { s with committing := true }.goto p .commit
  else s.goto p .outside

/-- What `commit` does to the header in memory. -/
def committed (p : Fin n) (s : LogSys n) : LogSys n :=
  { s with lh := if 0 < s.lh.length then [] else s.lh, calls := [] }.goto p .committed

/-- The end of `end_op` after `commit`. -/
def finish (p : Fin n) (s : LogSys n) : LogSys n := { s with committing := false }.goto p .outside

/-- The step of an event, where the process is at its place. -/
def logMove (e : LogEvent n) (s : LogSys n) : Option (LogSys n) :=
  match e with
  | .begin_op p => if s.pc p = .outside then some (begin_op p s) else none
  | .log_write p b =>
    -- an operation logs at most `MAXOPBLOCKS` distinct blocks
    if s.pc p = .inside ∧ (note b (s.logged p)).length ≤ MAXOPBLOCKS then some (log_write p b s)
    else none
  | .append p =>
    match s.pc p with
    | .logging b => some (append p b s)
    | _ => none
  | .end_op p => if s.pc p = .inside then some (end_op p s) else none
  | .commit p => if s.pc p = .commit then some (committed p s) else none
  | .finish p => if s.pc p = .committed then some (finish p s) else none

/-- One step; a panic stops the kernel. -/
def logStep (e : LogEvent n) (s : LogSys n) : Option (LogSys n) :=
  if s.panicked.isSome then none else logMove e s

end Log

end OsPlayground
