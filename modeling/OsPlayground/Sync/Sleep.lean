import Mathlib.Logic.Function.Basic
import OsPlayground.Lib.Run
import OsPlayground.Proc.Model

/-!
# `sleep` and `wakeup`

`proc.c`: any number of processes that wait for a condition protected by `lk`, set it, and wake the
sleepers on `chan`, on any number of CPUs. Here every lock operation, every assignment of `sleep`
and every slot that `wakeup1` looks at is a step of its own.

* `SleepPc`: the places in `sleep`, `wakeup` and the code around them.
* `SleepSys`, `sleepNext`, `wakeupNext`, `sleepStep`: the steps of a process, of the schedulers and
  of `kill`.

`same` says whether `lk` is `ptable.lock`. A process that holds a spin lock has interrupts off, so
it yields its CPU only when it holds none.
-/

namespace OsPlayground

/-- Where a process is. In `sleep` the constructors name what comes next; `inside` tells whether
`wakeup` is called between `acquire(lk)` and `release(lk)`. -/
inductive SleepPc
  | outside
  | critical
  /-- The condition was false: `acquire(&ptable.lock)`, unless `lk` is that lock. -/
  | entry
  /-- `release(lk)`. -/
  | both
  /-- `p->chan = chan`. -/
  | setChan
  /-- `p->state = SLEEPING`. -/
  | setState
  /-- `sched()`. -/
  | sched
  /-- Switched out in `sched()`. -/
  | asleep
  /-- `p->chan = 0`. -/
  | tidy
  /-- `release(&ptable.lock)`. -/
  | unlock
  /-- `acquire(lk)`. -/
  | relock
  /-- `acquire(&ptable.lock)` of `wakeup`. -/
  | wakeup (inside : Bool)
  /-- `wakeup1` at the slot `i`. -/
  | scan (inside : Bool) (i : ℕ)
  /-- Switched out in `yield` (or not yet in `forkret`). -/
  | yielded (back : SleepPc)
  /-- Back in `yield` (or in `forkret`): `release(&ptable.lock)`. -/
  | resumed (back : SleepPc)
  deriving DecidableEq

/-- The holder of `ptable.lock`: it goes with the CPU through `swtch`. -/
inductive LockHolder (n : ℕ)
  | process (p : Fin n)
  | scheduler (c : ℕ)
  deriving DecidableEq

/-- Waiters and setters of one condition, with the two locks. -/
structure SleepSys (n : ℕ) where
  lk : Option (Fin n)
  ptable : Option (LockHolder n)
  /-- The condition that `lk` protects. -/
  cond : Bool
  pc : Fin n → SleepPc
  state : Fin n → ProcState
  chan : Fin n → Chan
  /-- The CPU a process runs on. -/
  on : Fin n → ℕ
  /-- `c->proc`. -/
  cpu : ℕ → Option (Fin n)

/-- Processes just forked, no lock held. -/
def sleepStart (n : ℕ) (cond : Bool) : SleepSys n where
  lk := none
  ptable := none
  cond := cond
  pc _ := .yielded .outside
  state _ := .runnable
  chan _ := .null
  on _ := 0
  cpu _ := none

variable {n : ℕ}

namespace SleepSys

/-- `p` goes on at `pc`. -/
def goto (p : Fin n) (pc : SleepPc) (s : SleepSys n) : SleepSys n :=
  { s with pc := Function.update s.pc p pc }

/-- `acquire(lk)`, or `none` while it spins. -/
def acquireLk (same : Bool) (p : Fin n) (s : SleepSys n) : Option (SleepSys n) :=
  if same then
    if s.ptable = none then some { s with ptable := some (.process p) } else none
  else
    if s.lk = none then some { s with lk := some p } else none

/-- `release(lk)`. -/
def releaseLk (same : Bool) (s : SleepSys n) : SleepSys n :=
  if same then { s with ptable := none } else { s with lk := none }

end SleepSys

/-- The next step of `p` inside `sleep(chan, lk)`. -/
def sleepNext (same : Bool) (chan : Chan) (p : Fin n) (s : SleepSys n) : Option (SleepSys n) :=
  match s.pc p with
  | .entry =>
    if same then some (s.goto p .setChan)
    else if s.ptable = none then some ({ s with ptable := some (.process p) }.goto p .both)
    else none
  | .both => some ({ s with lk := none }.goto p .setChan)
  | .setChan => some ({ s with chan := Function.update s.chan p chan }.goto p .setState)
  | .setState => some ({ s with state := Function.update s.state p .sleeping }.goto p .sched)
  | .sched => some ({ s with
      ptable := some (.scheduler (s.on p))
      cpu := Function.update s.cpu (s.on p) none }.goto p .asleep)
  | .tidy =>
    some ({ s with chan := Function.update s.chan p .null }.goto p
      (if same then .critical else .unlock))
  | .unlock => some ({ s with ptable := none }.goto p .relock)
  | .relock => (s.acquireLk same p).map (SleepSys.goto p .critical)
  | _ => none

/-- The next step of `p` in a call of `wakeup(chan)`. With `ptable.lock` held as `lk` it is a call
of `wakeup1`, as in `exit`. -/
def wakeupNext (same : Bool) (chan : Chan) (p : Fin n) (s : SleepSys n) : Option (SleepSys n) :=
  match s.pc p with
  | .outside => some (s.goto p (.wakeup false))
  | .critical => some (s.goto p (if same then .scan true 0 else .wakeup true))
  | .wakeup inside =>
    if s.ptable = none then
      some ({ s with ptable := some (.process p) }.goto p (.scan inside 0))
    else none
  | .scan inside i =>
    if hi : i < n then
      if s.state ⟨i, hi⟩ = .sleeping ∧ s.chan ⟨i, hi⟩ = chan then
        some ({ s with state := Function.update s.state ⟨i, hi⟩ .runnable }.goto p
          (.scan inside (i + 1)))
      else some (s.goto p (.scan inside (i + 1)))
    else if inside then
      some ({ s with ptable := if same then s.ptable else none }.goto p .critical)
    else some ({ s with ptable := none }.goto p .outside)
  | _ => none

/-- A step of a process, at the granularity of one acquire, release or test. -/
inductive SleepEvent (n : ℕ)
  /-- `acquire(lk)` before the test or the setting of the condition. -/
  | acquire (p : Fin n)
  /-- The test of a waiter: on false it calls `sleep`. -/
  | test (p : Fin n)
  | set (p : Fin n)
  | consume (p : Fin n)
  | release (p : Fin n)
  | sleep (p : Fin n)
  | wakeup (p : Fin n)
  /-- `yield` up to `swtch`, and its `release` after it. -/
  | preempt (p : Fin n)
  | resume (p : Fin n)
  | kill (p : Fin n)
  /-- `scheduler` on the CPU `c`. -/
  | schedAcquire (c : ℕ)
  | schedule (c : ℕ) (p : Fin n)
  | schedRelease (c : ℕ)

/-- One step, or `none` if it cannot be taken now. -/
def sleepStep (same : Bool) (chan : Chan) :
    SleepEvent n → SleepSys n → Option (SleepSys n)
  | .acquire p, s =>
    if s.state p = .running ∧ s.pc p = .outside then
      (s.acquireLk same p).map (SleepSys.goto p .critical)
    else none
  | .test p, s =>
    if s.state p = .running ∧ s.pc p = .critical then
      some (s.goto p (if s.cond then .critical else .entry))
    else none
  | .set p, s =>
    if s.state p = .running ∧ s.pc p = .critical then some { s with cond := true } else none
  | .consume p, s =>
    if s.state p = .running ∧ s.pc p = .critical then some { s with cond := false } else none
  | .release p, s =>
    if s.state p = .running ∧ s.pc p = .critical then some ((s.releaseLk same).goto p .outside)
    else none
  | .sleep p, s =>
    -- `sched` runs the switch although `p->state` is `SLEEPING` already.
    if s.state p = .running ∨ s.pc p = .sched then sleepNext same chan p s else none
  | .wakeup p, s => if s.state p = .running then wakeupNext same chan p s else none
  | .preempt p, s =>
    if s.state p = .running ∧ s.ptable = none ∧
        (s.pc p = .outside ∨ s.pc p = .relock ∨ s.pc p = .wakeup false) then
      some ({ s with
        state := Function.update s.state p .runnable
        ptable := some (.scheduler (s.on p))
        cpu := Function.update s.cpu (s.on p) none }.goto p (.yielded (s.pc p)))
    else none
  | .resume p, s =>
    match s.pc p with
    | .resumed back => some ({ s with ptable := none }.goto p back)
    | _ => none
  | .kill p, s =>
    if s.ptable = none ∧ s.state p = .sleeping then
      some { s with state := Function.update s.state p .runnable }
    else none
  | .schedAcquire c, s =>
    if s.ptable = none ∧ s.cpu c = none then some { s with ptable := some (.scheduler c) } else none
  | .schedule c p, s =>
    if s.ptable = some (.scheduler c) ∧ s.state p = .runnable then
      let s' := { s with
        state := Function.update s.state p .running
        ptable := some (.process p)
        on := Function.update s.on p c
        cpu := Function.update s.cpu c (some p) }
      match s.pc p with
      | .asleep => some (s'.goto p .tidy)
      | .yielded back => some (s'.goto p (.resumed back))
      | _ => none
    else none
  | .schedRelease c, s =>
    if s.ptable = some (.scheduler c) then some { s with ptable := none } else none

end OsPlayground
