import Mathlib.Data.Int.Notation
import Mathlib.Data.List.Basic
import Mathlib.Logic.Function.Basic
import OsPlayground.Lib.Run
import OsPlayground.Sync.Spinlock

/-!
# Spin locks, interrupts and context switches

`acquire`, `release`, `pushcli` and `popcli` of `spinlock.c` and `sched` of `proc.c`, one access to
memory or to the flags at a time, by any number of CPUs that interrupts and `swtch` make run any code.

* `Pc`: where a thread is in these functions.
* `Cpus`, `CpuEvent`, `cpuStep`: the system.

A thread is a process or the scheduler of a CPU. What the other code does is left open, but for
this: a call of `popcli` undoes a `pushcli` on the same CPU, interrupts are turned on and interrupt
handlers return where nothing is held, and the scheduler switches with `ptable.lock` alone.
-/

namespace OsPlayground

namespace Locks

/-- What runs on a CPU. -/
inductive Thread
  | scheduler (c : ℕ)
  | proc (p : ℕ)
  deriving DecidableEq

/-- Where a thread is; `o` is the lock that is being acquired, if `acquire` has called `pushcli`. -/
inductive Pc (L : Type)
  /-- Outside these functions. -/
  | run
  /-- In `pushcli`, which has read `eflags`. -/
  | pushcli (o : Option L) (eflags : Bool)
  /-- After `cli`. -/
  | pushed (o : Option L) (eflags : Bool)
  /-- In `holding`, called by `acquire`. -/
  | check (l : L)
  /-- It has found `locked`. -/
  | check' (l : L)
  | xchg (l : L)
  /-- Before `lk->cpu = mycpu()`. -/
  | setcpu (l : L)
  /-- In `holding`, called by `release`. -/
  | holding (l : L)
  | holding' (l : L)
  /-- Before `lk->cpu = 0`. -/
  | clear (l : L)
  /-- Before `lk->locked` is cleared. -/
  | unlock (l : L)
  | popcli
  /-- After `--mycpu()->ncli`. -/
  | popped
  /-- In `swtch`, with `intena` saved. -/
  | swtch (intena : Bool)
  /-- Back from it. -/
  | resumed (intena : Bool)
  /-- At the start of `forkret`. -/
  | fresh
  deriving DecidableEq

/-- `struct cpu`, with the flag and the locks of the thread on it. -/
structure Cpu (L : Type) where
  /-- `FL_IF`. -/
  iff : Bool
  ncli : ℤ
  intena : Bool
  thread : Thread
  /-- History variable: the locks acquired on this CPU and not released. -/
  held : List L
  /-- History variable: the calls of `pushcli` by other code that are not undone. -/
  bare : ℕ

/-- The CPUs, the locks, and the threads that do not run. -/
structure Cpus (L : Type) where
  cpu : ℕ → Cpu L
  lock : L → Spinlock
  /-- The frames of a thread, the last interrupt first. -/
  stack : Thread → List (Pc L)
  /-- History variable: what `FL_IF` was at the first `pushcli` that is not undone. -/
  was : Thread → Bool
  panicked : Option String

/-- The CPUs run their schedulers, and no lock is held. -/
def cpusStart (L : Type) : Cpus L where
  cpu c := ⟨false, 0, false, .scheduler c, [], 0⟩
  lock _ := .initlock
  stack
    | .scheduler _ => [.run]
    | .proc _ => [.fresh]
  was _ := false
  panicked := none

/-- The next access of a CPU, or a new call on it. -/
inductive CpuEvent (L : Type)
  /-- The next access of the function that the CPU is in. -/
  | go (c : ℕ)
  | acquire (c : ℕ) (l : L)
  | release (c : ℕ) (l : L)
  | pushcli (c : ℕ)
  | popcli (c : ℕ)
  | sti (c : ℕ)
  | cli (c : ℕ)
  | interrupt (c : ℕ)
  | iret (c : ℕ)
  /-- A process calls `sched`; `running`: its `state` is still `RUNNING`. -/
  | sched (c : ℕ) (running : Bool)
  /-- The scheduler switches to the process. -/
  | dispatch (c p : ℕ)
  /-- A new process gets the slot of one that has exited. -/
  | spawn (p : ℕ)

variable {L : Type} [DecidableEq L]

namespace Cpus

/-- Where the CPU is. -/
def pc (s : Cpus L) (c : ℕ) : Pc L := (s.stack (s.cpu c).thread).headD .run

/-- The thread goes on at `v`. -/
def goto (t : Thread) (v : Pc L) (s : Cpus L) : Cpus L :=
  { s with stack := Function.update s.stack t (v :: (s.stack t).tail) }

/-- CPU `c` becomes `k`. -/
def setCpu (c : ℕ) (k : Cpu L) (s : Cpus L) : Cpus L := { s with cpu := Function.update s.cpu c k }

/-- Lock `l` becomes `lk`. -/
def setLock (l : L) (lk : Spinlock) (s : Cpus L) : Cpus L :=
  { s with lock := Function.update s.lock l lk }

/-- `panic(m)`; nothing runs after it. -/
def panic (m : String) (s : Cpus L) : Cpus L := { s with panicked := some m }

/-- `mycpu`, and then the rest. -/
def mycpu (c : ℕ) (s t : Cpus L) : Cpus L :=
  if (s.cpu c).iff = true then s.panic "mycpu called with interrupts enabled\n" else t

/-- The end of `pushcli`. -/
def pushed (c : ℕ) (o : Option L) (eflags : Bool) (s : Cpus L) : Cpus L :=
  let k := s.cpu c
  let first := k.ncli = 0
  let s := { s with was := if first then Function.update s.was k.thread eflags else s.was }
  let k := { k with intena := if first then eflags else k.intena, ncli := k.ncli + 1 }
  match o with
  | some l => (s.setCpu c k).goto k.thread (.check l)
  | none => (s.setCpu c { k with bare := k.bare + 1 }).goto k.thread .run

/-- `popcli` up to the decrement. -/
def popcli (c : ℕ) (s : Cpus L) : Cpus L :=
  let k := s.cpu c
  if k.iff = true then s.panic "popcli - interruptible"
  else if k.ncli - 1 < 0 then (s.setCpu c { k with ncli := k.ncli - 1 }).panic "popcli"
  else (s.setCpu c { k with ncli := k.ncli - 1 }).goto k.thread .popped

/-- The next access at `v`, or `none` outside the functions. -/
def go (c : ℕ) (v : Pc L) (s : Cpus L) : Option (Cpus L) :=
  let k := s.cpu c
  let t := k.thread
  match v with
  | .run | .swtch _ | .fresh => none
  | .pushcli o eflags => some ((s.setCpu c { k with iff := false }).goto t (.pushed o eflags))
  | .pushed o eflags => some (s.mycpu c (s.pushed c o eflags))
  | .check l => some (s.goto t (if (s.lock l).locked = true then .check' l else .xchg l))
  | .check' l => some (s.mycpu c
      (if (s.lock l).cpu = some c then s.panic "acquire" else s.goto t (.xchg l)))
  | .xchg l =>
    -- it spins
    if (s.lock l).locked = true then some s
    else some (((s.setLock l { s.lock l with locked := true }).setCpu c
      { k with held := l :: k.held }).goto t (.setcpu l))
  | .setcpu l =>
    some (s.mycpu c ((s.setLock l { s.lock l with cpu := some c }).goto t .run))
  | .holding l =>
    some (if (s.lock l).locked = true then s.goto t (.holding' l) else s.panic "release")
  | .holding' l => some (s.mycpu c
      (if (s.lock l).cpu = some c then s.goto t (.clear l) else s.panic "release"))
  | .clear l => some ((s.setLock l { s.lock l with cpu := none }).goto t (.unlock l))
  | .unlock l => some (((s.setLock l { s.lock l with locked := false }).setCpu c
      { k with held := k.held.erase l }).goto t .popcli)
  | .popcli => some (s.popcli c)
  | .popped => some (s.mycpu c ((s.setCpu c
      { k with iff := if k.ncli = 0 ∧ k.intena = true then true else k.iff }).goto t .run))
  | .resumed intena => some (s.mycpu c ((s.setCpu c { k with intena }).goto t .run))

/-- The process on the CPU calls `sched`. -/
def sched (ptable : L) (c p : ℕ) (running : Bool) (s : Cpus L) : Cpus L :=
  let k := s.cpu c
  if (s.lock ptable).locked = false then s.panic "sched ptable.lock"
  else s.mycpu c
    (if (s.lock ptable).cpu ≠ some c then s.panic "sched ptable.lock"
    else if k.ncli ≠ 1 then s.panic "sched locks"
    else if running = true then s.panic "sched running"
    else if k.iff = true then s.panic "sched interruptible"
    else ((s.goto (.proc p) (.swtch k.intena)).goto (.scheduler c) .run).setCpu c
      { k with thread := .scheduler c })

/-- The scheduler of the CPU switches to `p`. -/
def dispatch (c p : ℕ) (s : Cpus L) : Option (Cpus L) :=
  let k := s.cpu c
  let enter := fun v => some (((s.goto (.scheduler c) (.swtch k.intena)).goto (.proc p) v).setCpu c
    { k with thread := .proc p })
  match (s.stack (.proc p)).headD .run with
  | .swtch intena => enter (.resumed intena)
  | .fresh =>
    -- `forkret` keeps the `intena` that it finds
    (enter .run).map fun s => { s with was := Function.update s.was (.proc p) k.intena }
  | _ => none

end Cpus

/-- One step. -/
def cpuStep (ptable : L) (e : CpuEvent L) (s : Cpus L) : Option (Cpus L) :=
  if s.panicked ≠ none then none
  else
    match e with
    | .go c => s.go c (s.pc c)
    | .acquire c l =>
      if s.pc c = .run then some (s.goto (s.cpu c).thread (.pushcli (some l) (s.cpu c).iff))
      else none
    | .release c l =>
      if s.pc c = .run then some (s.goto (s.cpu c).thread (.holding l)) else none
    | .pushcli c =>
      if s.pc c = .run then some (s.goto (s.cpu c).thread (.pushcli none (s.cpu c).iff)) else none
    | .popcli c =>
      if s.pc c = .run ∧ 0 < (s.cpu c).bare then
        some ((s.setCpu c { s.cpu c with bare := (s.cpu c).bare - 1 }).goto (s.cpu c).thread .popcli)
      else none
    | .sti c =>
      if s.pc c = .run ∧ (s.cpu c).held = [] ∧ (s.cpu c).bare = 0 then
        some (s.setCpu c { s.cpu c with iff := true })
      else none
    | .cli c =>
      if s.pc c = .run then some (s.setCpu c { s.cpu c with iff := false }) else none
    | .interrupt c =>
      if (s.cpu c).iff = true then
        some { s.setCpu c { s.cpu c with iff := false } with
          stack := Function.update s.stack (s.cpu c).thread (.run :: s.stack (s.cpu c).thread) }
      else none
    | .iret c =>
      match s.stack (s.cpu c).thread with
      | .run :: v :: vs =>
        if (s.cpu c).held = [] ∧ (s.cpu c).bare = 0 then
          some { s.setCpu c { s.cpu c with iff := true } with
            stack := Function.update s.stack (s.cpu c).thread (v :: vs) }
        else none
      | _ => none
    | .sched c running =>
      match (s.cpu c).thread with
      | .proc p => if s.pc c = .run then some (s.sched ptable c p running) else none
      | .scheduler _ => none
    | .dispatch c p =>
      if (s.cpu c).thread = .scheduler c ∧ s.pc c = .run ∧ (s.cpu c).held = [ptable] ∧
          (s.cpu c).bare = 0 then s.dispatch c p
      else none
    | .spawn p =>
      match (s.stack (.proc p)).headD .run with
      | .swtch _ => some { s with stack := Function.update s.stack (.proc p) [.fresh] }
      | _ => none

end Locks

end OsPlayground
