import Mathlib.Algebra.Group.Nat.Defs
import Mathlib.Data.Fin.Basic
import Mathlib.Data.List.FinRange
import Mathlib.Data.Int.Notation
import Mathlib.Logic.Function.Basic
import OsPlayground.Lib.Run

/-!
# The process table

`proc.c`: the table `ptable` with its multi-level run queue, and every section of code that runs
under `ptable.lock` (or writes a process's fields outside it) as one step of the machine.

* `Proc`, `Ptable`: the fields that scheduling reads; memory is modelled elsewhere.
* `qpush`, `wakeup1`, `kill`, `allocproc`, `schedule`, `scheduleR`, ...: the functions of `proc.c`.
* `Event`, `step`: what the CPUs can do next; `boot`: the table before `userinit`.

A CPU that holds `ptable.lock` across a context switch is recorded in `Ptable.lock`: it has either
just switched into its process (`Lock.process`) or just back into `scheduler` (`Lock.scheduler`).
A process that is switched out keeps in `Proc.context` the place where it will go on, and in
`Proc.call` the locals of a `fork` or `exit` in progress.
-/

namespace OsPlayground

abbrev NPROC : ℕ := 64
abbrev NOFILE : ℕ := 16
abbrev NPROCQ : ℕ := 3
abbrev MAXSHAREDPG : ℕ := 10

/-- A `struct proc *` into `ptable.proc`. -/
abbrev Slot := Fin NPROC

/-- `enum procstate`. -/
inductive ProcState
  | unused | embryo | sleeping | runnable | running | zombie
  deriving DecidableEq, Repr

/-- A `void *chan`: null, the address of a process, or the address of some other object. -/
inductive Chan
  | null
  | proc (p : Slot)
  | addr (a : ℕ)
  deriving DecidableEq, Repr

/-- The channel of a `struct proc *` that may be null. -/
def Chan.ofProc : Option Slot → Chan
  | none => .null
  | some p => .proc p

/-- Where a process that is switched out goes on: in `forkret`, after `sched` in `yield`, after
`sched` in `sleep` on another lock, or after `sched` in `sleep(curproc, &ptable.lock)` of `wait`. -/
inductive Context
  | forkret | yield | sleep | wait
  deriving DecidableEq, Repr

/-- The system call a process is in the middle of, with its locals: `fork` before, during and after
the copying of the parent into the slot `np`, or `exit` after the files are closed. -/
inductive Call
  | none
  | allocproc (np : Slot)
  | fork (np : Slot)
  | forked (np : Slot)
  | exit
  deriving DecidableEq, Repr

/-- `struct proc`. -/
structure Proc where
  state : ProcState := .unused
  pid : ℤ := 0
  parent : Option Slot := none
  chan : Chan := .null
  killed : Bool := false
  ofile : Fin NOFILE → Option ℕ := fun _ => none
  next : Option Slot := none
  priority : ℕ := 0
  timepiece : ℕ := 0
  /-- `sharedrec[idx] == 's'`. -/
  sharedrec : ℕ → Bool := fun _ => false
  widx : ℕ := 0
  context : Context := .forkret
  call : Call := .none

/-- `struct pqueue`. -/
structure PQueue where
  head : Option Slot := none
  last : Option Slot := none

/-- The holder of `ptable.lock` between two steps. -/
inductive Lock
  | free
  | scheduler (c : ℕ)
  | process (c : ℕ)
  deriving DecidableEq, Repr

/-- `ptable`, the CPUs, and who holds `ptable.lock`. -/
structure Ptable where
  proc : Slot → Proc
  pqueue : ℕ → PQueue
  count : ℕ → ℕ
  lock : Lock
  /-- `c->proc` of every CPU. -/
  cpu : ℕ → Option Slot
  nextpid : ℤ
  initproc : Option Slot
  /-- History variable: the processes `qpush` was called on, oldest first. No function reads it. -/
  pushed : List Slot

/-- The table as `main` finds it: static data, all zero but `nextpid`. -/
def boot : Ptable where
  proc _ := {}
  pqueue _ := {}
  count _ := 0
  lock := .free
  cpu _ := none
  nextpid := 1
  initproc := none
  pushed := []

/-- `for(p = ptable.proc; p < &ptable.proc[NPROC]; p++)`. -/
abbrev slots : List Slot := List.finRange NPROC

namespace Ptable

/-- Assign to fields of `*p`. -/
def setProc (t : Ptable) (p : Slot) (f : Proc → Proc) : Ptable :=
  { t with proc := Function.update t.proc p (f (t.proc p)) }

/-- `p->state`, with a null `p` reading zeros. -/
def stateOf (t : Ptable) : Option Slot → ProcState
  | none => .unused
  | some p => (t.proc p).state

/-- `p->next`, with a null `p` reading zeros. -/
def nextOf (t : Ptable) : Option Slot → Option Slot
  | none => none
  | some p => (t.proc p).next

/-- `p->next = np`. -/
def setNext (t : Ptable) (p : Option Slot) (np : Slot) : Ptable :=
  match p with
  | none => t
  | some p => t.setProc p fun r => { r with next := some np }

end Ptable

/-! ## Queues -/

/-- `qpush`. -/
def qpush (np : Slot) (t : Ptable) : Ptable :=
  let q := (t.proc np).priority
  let t :=
    if t.count q ≤ 0 then
      let t := t.setProc np fun r => { r with next := some np }
      { t with pqueue := Function.update t.pqueue q ⟨some np, some np⟩ }
    else
      let t := t.setProc np fun r => { r with next := (t.pqueue q).head }
      let t := t.setNext (t.pqueue q).last np
      { t with pqueue := Function.update t.pqueue q ⟨(t.pqueue q).head, some np⟩ }
  let t := t.setProc np fun r => { r with timepiece := 1 <<< (NPROCQ - q - 1) }
  { t with count := Function.update t.count q (t.count q + 1), pushed := t.pushed ++ [np] }

/-- `ptable.pqueue[q].head = ptable.pqueue[q].head->next; ptable.count[q]--`. -/
def popHead (q : ℕ) (t : Ptable) : Ptable :=
  { t with
    pqueue := Function.update t.pqueue q ⟨t.nextOf (t.pqueue q).head, (t.pqueue q).last⟩
    count := Function.update t.count q (t.count q - 1) }

/-- The `while` loop of `scheduler`: throw away heads that are not `RUNNABLE`. Each round lowers
`count[q]`, so `count[q]` rounds are enough. -/
def discard (q : ℕ) : ℕ → Ptable → Ptable
  | 0, t => t
  | fuel + 1, t =>
    if 0 < t.count q ∧ t.stateOf (t.pqueue q).head ≠ .runnable then
      discard q fuel (popHead q t)
    else t

/-- The `for` loop of `scheduler` over the levels below `n`, highest first: the process chosen. -/
def scheduleFrom : ℕ → Ptable → Ptable × Option Slot
  | 0, t => (t, none)
  | n + 1, t =>
    let t := discard n (t.count n) t
    if 0 < t.count n then (popHead n t, (t.pqueue n).head) else scheduleFrom n t

/-- One pass of `scheduler` up to the choice of a process. -/
def schedule (t : Ptable) : Ptable × Option Slot := scheduleFrom NPROCQ t

/-- The choice of `schedulerR`, which scans the table. -/
def scheduleR (t : Ptable) : Option Slot := slots.find? fun p => (t.proc p).state = .runnable

/-! ## Sections under `ptable.lock` -/

/-- `sched`: switch to this CPU's scheduler, still holding `ptable.lock`. -/
def sched (c : ℕ) (p : Slot) (ctx : Context) (t : Ptable) : Ptable :=
  { t.setProc p fun r => { r with context := ctx } with lock := .scheduler c }

/-- `yield` up to `sched`. -/
def yield (c : ℕ) (p : Slot) (t : Ptable) : Ptable :=
  let t := t.setProc p fun r => { r with state := .runnable }
  let t := t.setProc p fun r => { r with priority := if 0 < r.priority then r.priority - 1
    else r.priority }
  sched c p .yield (qpush p t)

/-- `sleep` up to `sched`; `ctx` says whether the caller's lock is `ptable.lock`. -/
def sleep (c : ℕ) (p : Slot) (chan : Chan) (ctx : Context) (t : Ptable) : Ptable :=
  sched c p ctx (t.setProc p fun r => { r with chan := chan, state := .sleeping })

/-- The body of the loop of `wakeup1`. -/
def wakeOne (chan : Chan) (t : Ptable) (p : Slot) : Ptable :=
  if (t.proc p).state = .sleeping ∧ (t.proc p).chan = chan then
    let t := t.setProc p fun r => { r with state := .runnable }
    let t := t.setProc p fun r => { r with priority := if r.priority < NPROCQ - 1
      then r.priority + 1 else r.priority }
    qpush p t
  else t

/-- `wakeup1`. -/
def wakeup1 (chan : Chan) (t : Ptable) : Ptable := slots.foldl (wakeOne chan) t

/-- The slot `kill` acts on. -/
def killed? (pid : ℤ) (t : Ptable) : Option Slot := slots.find? fun p => (t.proc p).pid = pid

/-- `kill`, with its return value. -/
def kill (pid : ℤ) (t : Ptable) : Ptable × ℤ :=
  match killed? pid t with
  | none => (t, -1)
  | some p => (t.setProc p fun r => { r with
      killed := true
      state := if r.state = .sleeping then .runnable else r.state }, 0)

/-- The section of `allocproc` under the lock. -/
def allocproc (t : Ptable) : Option (Slot × Ptable) :=
  (slots.find? fun p => (t.proc p).state = .unused).map fun p =>
    (p, { t.setProc p fun r => { r with state := .embryo, pid := t.nextpid } with
      nextpid := Int.bmod (t.nextpid + 1) (2 ^ 32) })

/-- The rest of `allocproc` after the kernel stack is there. -/
def allocprocInit (np : Slot) (t : Ptable) : Ptable :=
  t.setProc np fun r => { r with context := .forkret, priority := NPROCQ - 1, widx := 0 }

/-- `np->state = UNUSED`, on the failure paths of `allocproc` and `fork`. -/
def freeEmbryo (np : Slot) (t : Ptable) : Ptable := t.setProc np fun r => { r with state := .unused }

/-- `fork` between `copyuvm` and `acquire`: the parent link and the open files. -/
def forkCopy (p np : Slot) (t : Ptable) : Ptable :=
  t.setProc np fun r => { r with
    parent := some p
    ofile := fun fd => if (t.proc p).ofile fd ≠ none then (t.proc p).ofile fd else r.ofile fd }

/-- The section of `fork` under the lock. The loop that clears `sharedrec` starts at 1. -/
def forkCommit (np : Slot) (t : Ptable) : Ptable :=
  let t := qpush np (t.setProc np fun r => { r with state := .runnable })
  t.setProc np fun r => { r with
    sharedrec := fun i => if 1 ≤ i ∧ i < MAXSHAREDPG then false else r.sharedrec i }

/-- The body of the loop of `exit` that passes children to init. -/
def reparentOne (cur : Slot) (t : Ptable) (p : Slot) : Ptable :=
  if (t.proc p).parent = some cur then
    let t := t.setProc p fun r => { r with parent := t.initproc }
    if (t.proc p).state = .zombie then wakeup1 (Chan.ofProc t.initproc) t else t
  else t

/-- The section of `exit` under the lock. -/
def exit (c : ℕ) (cur : Slot) (t : Ptable) : Ptable :=
  let t := wakeup1 (Chan.ofProc (t.proc cur).parent) t
  let t := slots.foldl (reparentOne cur) t
  let t := t.setProc cur fun r => { r with state := .zombie, call := .none }
  sched c cur (t.proc cur).context t

/-- The child the loop of `wait` finds to reap. -/
def zombieChild (cur : Slot) (t : Ptable) : Option Slot :=
  slots.find? fun p => (t.proc p).parent = some cur ∧ (t.proc p).state = .zombie

/-- `havekids` of `wait`, after the loop. -/
def havekids (cur : Slot) (t : Ptable) : Bool :=
  slots.any fun p => (t.proc p).parent = some cur

/-- `wait` on a zombie it found: the slot is free again. -/
def reap (p : Slot) (t : Ptable) : Ptable :=
  t.setProc p fun r => { r with pid := 0, parent := none, killed := false, state := .unused }

/-- One round of the loop of `wait`, with the value returned if the round returns. -/
def waitLoop (c : ℕ) (cur : Slot) (t : Ptable) : Ptable × Option ℤ :=
  match zombieChild cur t with
  | some p => ({ reap p t with lock := .free }, some (t.proc p).pid)
  | none =>
    if havekids cur t = false ∨ (t.proc cur).killed = true then
      ({ t with lock := .free }, some (-1))
    else (sleep c cur (.proc cur) .wait t, none)

/-- `userinit`. -/
def userinit (t : Ptable) : Option Ptable :=
  (allocproc t).map fun (p, t) =>
    let t := { allocprocInit p t with initproc := some p }
    qpush p (t.setProc p fun r => { r with state := .runnable })

/-! ## The machine -/

/-- What happens next, and on which CPU. -/
inductive Event
  | userinit
  /-- A pass of `scheduler` up to `swtch`. -/
  | dispatch (c : ℕ)
  /-- The process switched into goes on until it releases `ptable.lock` or switches back. -/
  | resume (c : ℕ)
  /-- The scheduler switched into goes on until it releases `ptable.lock`. -/
  | schedReturn (c : ℕ)
  /-- The clock interrupt of `trap`. -/
  | timer (c : ℕ)
  /-- The default case of `trap`. -/
  | fault (c : ℕ)
  | yield (c : ℕ)
  | sleep (c : ℕ) (chan : ℕ)
  | wakeup (chan : Chan)
  | kill (pid : ℤ)
  | allocproc (c : ℕ)
  /-- The rest of `allocproc`; `ok` says whether `kalloc` found a page for the kernel stack. -/
  | allocprocInit (c : ℕ) (ok : Bool)
  /-- `copyuvm` in `fork`, and what follows it; `ok` says whether it succeeded. -/
  | forkCopy (c : ℕ) (ok : Bool)
  | forkCommit (c : ℕ)
  /-- `exit` up to `acquire`. -/
  | exitFiles (c : ℕ)
  | exit (c : ℕ)
  | wait (c : ℕ)
  | getshared (c : ℕ) (idx : ℕ)
  | releaseshared (c : ℕ) (idx : ℕ)
  | fdalloc (c : ℕ) (f : ℕ)
  | close (c : ℕ) (fd : Fin NOFILE)
  /-- `myproc()->widx = i` in `splitw`. -/
  | splitw (c : ℕ) (i : ℕ)

/-- `myproc()`, on a CPU that does not hold `ptable.lock` across a context switch. -/
def Ptable.myproc (t : Ptable) (c : ℕ) : Option Slot :=
  if t.lock = .scheduler c ∨ t.lock = .process c then none else t.cpu c

/-- `myproc()` at the start of a system call. -/
def Ptable.caller (t : Ptable) (c : ℕ) : Option Slot :=
  (t.myproc c).filter fun p => (t.proc p).call = .none

/-- Run `f` if `ptable.lock` can be acquired. -/
def Ptable.locked {α : Type} (t : Ptable) (f : Ptable → Option α) : Option α :=
  if t.lock = .free then f t else none

/-- Assign to fields of the calling process. -/
def Ptable.assign (t : Ptable) (c : ℕ) (f : Proc → Proc) : Option Ptable :=
  (t.caller c).map fun p => t.setProc p f

/-- `fdalloc`: the lowest free descriptor. -/
def fdalloc (f : ℕ) (r : Proc) : Proc :=
  match (List.finRange NOFILE).find? fun fd => r.ofile fd = none with
  | none => r
  | some fd => { r with ofile := Function.update r.ofile fd (some f) }

/-- The process goes on after a switch into it. -/
def resume (c : ℕ) (p : Slot) (t : Ptable) : Ptable :=
  match (t.proc p).context with
  | .forkret | .yield => { t with lock := .free }
  | .sleep => { t.setProc p fun r => { r with chan := .null } with lock := .free }
  | .wait => (waitLoop c p (t.setProc p fun r => { r with chan := .null })).1

/-- The clock interrupt: `--timepiece <= 0` on an unsigned counter is `--timepiece == 0`. -/
def timer (c : ℕ) (p : Slot) (t : Ptable) : Ptable :=
  if (t.proc p).state = .running then
    let t := t.setProc p fun r => { r with timepiece := (r.timepiece + (2 ^ 32 - 1)) % 2 ^ 32 }
    if (t.proc p).timepiece ≤ 0 then yield c p t else t
  else t

/-- One step of the machine; `none` if the event cannot happen or the kernel panics. -/
def step : Event → Ptable → Option Ptable
  | .userinit, t => if t.lock = .free ∧ t.initproc = none then userinit t else none
  | .dispatch c, t =>
    if t.lock = .free ∧ t.cpu c = none then
      match schedule t with
      | (t, none) => some t
      | (t, some p) => some { t.setProc p fun r => { r with state := .running } with
          cpu := Function.update t.cpu c (some p), lock := .process c }
    else none
  | .resume c, t => if t.lock = .process c then (t.cpu c).map fun p => resume c p t else none
  | .schedReturn c, t =>
    if t.lock = .scheduler c then
      some { t with cpu := Function.update t.cpu c none, lock := .free }
    else none
  | .timer c, t => t.locked fun t => (t.myproc c).map fun p => timer c p t
  | .fault c, t => t.assign c fun r => { r with killed := true }
  | .yield c, t => t.locked fun t => (t.myproc c).map fun p => yield c p t
  | .sleep c chan, t =>
    t.locked fun t => (t.myproc c).map fun p => sleep c p (.addr chan) .sleep t
  | .wakeup chan, t => t.locked fun t => some (wakeup1 chan t)
  | .kill pid, t => t.locked fun t => some (kill pid t).1
  | .allocproc c, t =>
    t.locked fun t => (t.caller c).map fun p =>
      match allocproc t with
      | none => t
      | some (np, t) => t.setProc p fun r => { r with call := .allocproc np }
  | .allocprocInit c ok, t =>
    (t.myproc c).bind fun p =>
      match (t.proc p).call, ok with
      | .allocproc np, true => some ((allocprocInit np t).setProc p fun r =>
          { r with call := .fork np })
      | .allocproc np, false => some ((freeEmbryo np t).setProc p fun r => { r with call := .none })
      | _, _ => none
  | .forkCopy c ok, t =>
    (t.myproc c).bind fun p =>
      match (t.proc p).call, ok with
      | .fork np, true => some ((forkCopy p np t).setProc p fun r => { r with call := .forked np })
      | .fork np, false => some ((freeEmbryo np t).setProc p fun r => { r with call := .none })
      | _, _ => none
  | .forkCommit c, t =>
    t.locked fun t => (t.myproc c).bind fun p =>
      match (t.proc p).call with
      | .forked np => some ((forkCommit np t).setProc p fun r => { r with call := .none })
      | _ => none
  | .exitFiles c, t =>
    (t.caller c).bind fun p =>
      -- `panic("init exiting")`
      if t.initproc = some p then none
      else some (t.setProc p fun r => { r with ofile := fun _ => none, call := .exit })
  | .exit c, t =>
    t.locked fun t => (t.myproc c).bind fun p =>
      if (t.proc p).call = .exit then some (exit c p t) else none
  | .wait c, t => t.locked fun t => (t.caller c).map fun p => (waitLoop c p t).1
  | .getshared c idx, t =>
    if idx < MAXSHAREDPG then
      t.assign c fun r => { r with sharedrec := Function.update r.sharedrec idx true }
    else none
  | .releaseshared c idx, t =>
    if idx < MAXSHAREDPG then
      t.assign c fun r => { r with sharedrec := Function.update r.sharedrec idx false }
    else none
  | .fdalloc c f, t => t.assign c (fdalloc f)
  | .close c fd, t => t.assign c fun r => { r with ofile := Function.update r.ofile fd none }
  | .splitw c i, t => t.assign c fun r => { r with widx := i }

end OsPlayground
