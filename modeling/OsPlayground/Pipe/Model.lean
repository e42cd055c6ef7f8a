import Mathlib.Data.Fintype.Basic
import OsPlayground.Lib.Ring
import OsPlayground.Lib.Run

/-!
# Pipes

`pipe.c`: one pipe with the processes that use it. A section between `acquire(&p->lock)` and the
next `release` or `sleep` runs alone, so it is one step; nothing else that it reads changes
meanwhile but `killed`, which is read at most once.

* `Pipe`, `writeLoop`, `readLoop`: the ring and the loops of `pipewrite` and `piperead`.
* `PipeSys`, `pipeStep`: the sections of the calls in progress, sleeping and waking, and `kfree`.
-/

namespace OsPlayground

open Lib

abbrev PIPESIZE : ℕ := 512

/-- The number of values of a `uint`. -/
abbrev UINTS : ℕ := 2 ^ 32

/-- `struct pipe`, less its lock. -/
structure Pipe where
  data : ℕ → ℕ
  nread : ℕ
  nwrite : ℕ
  readopen : Bool
  writeopen : Bool

namespace Pipe

/-- `p->nwrite == p->nread + PIPESIZE`. -/
def full (p : Pipe) : Bool := p.nwrite = (p.nread + PIPESIZE) % UINTS

/-- `p->nread == p->nwrite`. -/
def empty (p : Pipe) : Bool := p.nread = p.nwrite

/-- `p->data[p->nwrite++ % PIPESIZE] = b`. -/
def put (b : ℕ) (p : Pipe) : Pipe :=
  { p with
    data := Function.update p.data (p.nwrite % PIPESIZE) b
    nwrite := (p.nwrite + 1) % UINTS }

/-- `p->nread++`. -/
def advance (p : Pipe) : Pipe := { p with nread := (p.nread + 1) % UINTS }

end Pipe

/-- How a section of `pipewrite` ends: it returns `n` or -1, or sleeps with bytes left. -/
inductive WriteEnd
  | done
  | fail
  | sleep (bs : List ℕ)
  deriving DecidableEq

/-- The loop of `pipewrite` on the bytes left, up to its end or `sleep`: the pipe and the bytes
stored. -/
def writeLoop (killed : Bool) : List ℕ → Pipe → Pipe × List ℕ × WriteEnd
  | [], p => (p, [], .done)
  | b :: bs, p =>
    if p.full then
      if p.readopen = false ∨ killed = true then (p, [], .fail) else (p, [], .sleep (b :: bs))
    else
      let r := writeLoop killed bs (p.put b)
      (r.1, b :: r.2.1, r.2.2)

/-- The copying loop of `piperead`: the pipe and the bytes returned. -/
def readLoop : ℕ → Pipe → Pipe × List ℕ
  | 0, p => (p, [])
  | n + 1, p =>
    if p.empty then (p, [])
    else
      let r := readLoop n p.advance
      (r.1, p.data (p.nread % PIPESIZE) :: r.2)

/-- How a section of `piperead` ends: it returns bytes or -1, or sleeps. -/
inductive ReadEnd
  | done (p : Pipe) (bs : List ℕ)
  | fail
  | sleep

/-- A section of `piperead`. -/
def piperead (killed : Bool) (n : ℕ) (p : Pipe) : ReadEnd :=
  if p.empty ∧ p.writeopen then
    if killed then .fail else .sleep
  else .done (readLoop n p).1 (readLoop n p).2

/-! ## The processes -/

/-- The call that a process is in, with what it has left to do. -/
inductive PipePc
  | idle
  | write (bs : List ℕ)
  | read (n : ℕ)
  | close (writable : Bool)
  /-- `pipeclose` between `release` and `kfree`. -/
  | free
  deriving DecidableEq

/-- In `pipewrite`. -/
def PipePc.writing : PipePc → Bool
  | .write _ => true
  | _ => false

/-- In `piperead`. -/
def PipePc.reading : PipePc → Bool
  | .read _ => true
  | _ => false

/-- A pipe with `N` processes. -/
structure PipeSys (N : ℕ) where
  pipe : Pipe
  pc : Fin N → PipePc
  /-- The process is `SLEEPING`, a writer on `nwrite` and a reader on `nread`. -/
  asleep : Fin N → Bool
  killed : Fin N → Bool
  /-- The files of the two ends: `fileclose` has not reached `pipeclose` yet. -/
  rfile : Bool
  wfile : Bool
  /-- History variables: the bytes stored by writes and returned by reads, in order, and how often
  the page was freed. -/
  stored : List ℕ
  taken : List ℕ
  frees : ℕ

/-- A pipe as `pipealloc` makes it, on a page with any contents. -/
def pipeStart (N : ℕ) (data : ℕ → ℕ) : PipeSys N where
  pipe := ⟨data, 0, 0, true, true⟩
  pc _ := .idle
  asleep _ := false
  killed _ := false
  rfile := true
  wfile := true
  stored := []
  taken := []
  frees := 0

namespace PipeSys

variable {N : ℕ}

/-- Process `q` goes on at `pc`. -/
def setPc (s : PipeSys N) (q : Fin N) (pc : PipePc) : PipeSys N :=
  { s with pc := Function.update s.pc q pc }

/-- `wakeup(&p->nread)`. -/
def wakeReaders (s : PipeSys N) : PipeSys N :=
  { s with asleep := fun q => s.asleep q && !(s.pc q).reading }

/-- `wakeup(&p->nwrite)`. -/
def wakeWriters (s : PipeSys N) : PipeSys N :=
  { s with asleep := fun q => s.asleep q && !(s.pc q).writing }

/-- Process `q` sleeps. -/
def sleep (s : PipeSys N) (q : Fin N) : PipeSys N :=
  { s with asleep := Function.update s.asleep q true }

/-- A section of `pipewrite` with the bytes `bs` left. -/
def write (q : Fin N) (bs : List ℕ) (s : PipeSys N) : PipeSys N :=
  let r := writeLoop (s.killed q) bs s.pipe
  let s := { s with pipe := r.1, stored := s.stored ++ r.2.1 }
  match r.2.2 with
  | .done => (s.setPc q .idle).wakeReaders
  | .fail => s.setPc q .idle
  | .sleep bs => (s.setPc q (.write bs)).wakeReaders.sleep q

/-- A section of `piperead`. -/
def read (q : Fin N) (n : ℕ) (s : PipeSys N) : PipeSys N :=
  match piperead (s.killed q) n s.pipe with
  | .done p bs => ({ s with pipe := p, taken := s.taken ++ bs }.setPc q .idle).wakeWriters
  | .fail => s.setPc q .idle
  | .sleep => (s.setPc q (.read n)).sleep q

/-- The section of `pipeclose`. -/
def close (q : Fin N) (writable : Bool) (s : PipeSys N) : PipeSys N :=
  let s :=
    if writable then { s with pipe := { s.pipe with writeopen := false } }.wakeReaders
    else { s with pipe := { s.pipe with readopen := false } }.wakeWriters
  if s.pipe.readopen = false ∧ s.pipe.writeopen = false then s.setPc q .free else s.setPc q .idle

end PipeSys

/-- A section of a call under `p->lock`, or a `kill`. -/
inductive PipeEvent (N : ℕ)
  /-- The call of `pipewrite`, and its section. -/
  | write (q : Fin N) (bs : List ℕ)
  | read (q : Fin N) (n : ℕ)
  /-- The call of `pipeclose` by `fileclose`, when no descriptor of the end is left. -/
  | close (q : Fin N) (writable : Bool)
  /-- The next section of the call that a process is in, unless it sleeps. -/
  | resume (q : Fin N)
  | kill (q : Fin N)

/-- One step. A process calls through an end whose file is open, and is in one call at a time. -/
def pipeStep {N : ℕ} : PipeEvent N → PipeSys N → Option (PipeSys N)
  | .write q bs, s =>
    if s.pc q = .idle ∧ s.wfile = true then some (s.write q bs) else none
  | .read q n, s => if s.pc q = .idle ∧ s.rfile = true then some (s.read q n) else none
  | .close q true, s =>
    if s.pc q = .idle ∧ s.wfile = true ∧ ∀ q', (s.pc q').writing = false then
      some ({ s with wfile := false }.setPc q (.close true))
    else none
  | .close q false, s =>
    if s.pc q = .idle ∧ s.rfile = true ∧ ∀ q', (s.pc q').reading = false then
      some ({ s with rfile := false }.setPc q (.close false))
    else none
  | .resume q, s =>
    if s.asleep q = true then none
    else
      match s.pc q with
      | .idle => none
      | .write bs => some (s.write q bs)
      | .read n => some (s.read q n)
      | .close w => some (s.close q w)
      | .free => some { s.setPc q .idle with frees := s.frees + 1 }
  | .kill q, s =>
    some { s with
      killed := Function.update s.killed q true
      asleep := Function.update s.asleep q false }

end OsPlayground
