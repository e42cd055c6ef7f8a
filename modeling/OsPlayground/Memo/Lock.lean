import OsPlayground.Lib.Run
import OsPlayground.Sync.Spinlock

/-!
# The lock in the memo page

`memowrite` and `sys_getmemo` run between `acquire(&ch->lock)` and `release(&ch->lock)`; `sys_memo`
does so too, but first calls `initlock(&ch->lock)`. The lock lies in a page that processes share.

* `MemoLock`, `memoLockStep`: every lock operation of any process on any CPU is one step.
* `MemoLock.Held`: a process between `acquire` and `release` is on the CPU of the lock.
* **`memoLock_exclusion`**: while no `initlock` comes between another process's `acquire` and
  `release`, at most one process is there, and `release` does not panic.
-/

namespace OsPlayground

open Lib

/-- Where a process is: outside, in `sys_memo` after `initlock`, or between `acquire` and
`release`. -/
inductive MemoPc
  | outside
  | initialised
  | inside
  deriving DecidableEq

/-- The lock of the memo, the processes that use it, and the CPUs. -/
structure MemoLock where
  lock : Spinlock
  pc : ℕ → MemoPc
  /-- By CPU: the process that runs there between `acquire` and `release`, with interrupts off. -/
  inside : ℕ → Option ℕ
  panicked : Option String

/-- The page is zero when it is first shared. -/
def memoLockStart : MemoLock := ⟨{}, fun _ => .outside, fun _ => none, none⟩

/-- A step of the process `p` on the CPU `c`. -/
inductive MemoLockEvent
  | initlock (c p : ℕ)
  | acquire (c p : ℕ)
  | release (c : ℕ)

/-- One step, or `none` if it cannot be taken now: the CPU runs another process, the process is
elsewhere in its code, the lock is taken, or the kernel has panicked. -/
def memoLockStep : MemoLockEvent → MemoLock → Option MemoLock
  | .initlock c p, s =>
    if s.panicked = none ∧ s.inside c = none ∧ s.pc p = .outside then
      some { s with lock := .initlock, pc := Function.update s.pc p .initialised }
    else none
  | .acquire c p, s =>
    if s.panicked = none ∧ s.inside c = none ∧ s.pc p ≠ .inside then
      match s.lock.acquire c with
      | .ok lk => some { s with
          lock := lk
          pc := Function.update s.pc p .inside
          inside := Function.update s.inside c (some p) }
      | .spin => none
      | .panic msg => some { s with panicked := some msg }
    else none
  | .release c, s =>
    if s.panicked = none then
      (s.inside c).bind fun p =>
        match s.lock.release c with
        | .ok lk => some { s with
            lock := lk
            pc := Function.update s.pc p .outside
            inside := Function.update s.inside c none }
        | .spin => none
        | .panic msg => some { s with panicked := some msg }
    else none

namespace MemoLock

/-- At most one process is between `acquire` and `release`, and `release` has not panicked. -/
structure Exclusive (s : MemoLock) : Prop where
  unique : ∀ c c' p p', s.inside c = some p → s.inside c' = some p' → p = p'
  released : s.panicked ≠ some "release"

/-- The invariant: whoever is inside is on the CPU recorded in the lock. -/
structure Held (s : MemoLock) : Prop where
  lock : ∀ c p, s.inside c = some p → s.lock.locked = true ∧ s.lock.cpu = some c
  released : s.panicked ≠ some "release"

theorem Held.cpu_unique {s : MemoLock} (h : s.Held) {c c' p p' : ℕ} (hp : s.inside c = some p)
    (hp' : s.inside c' = some p') : c = c' :=
  Option.some.inj ((h.lock c p hp).2.symm.trans (h.lock c' p' hp').2)

theorem Held.exclusive {s : MemoLock} (h : s.Held) : s.Exclusive := by
  refine ⟨fun c c' p p' hp hp' => ?_, h.released⟩
  obtain rfl := h.cpu_unique hp hp'
  exact Option.some.inj (hp.symm.trans hp')

end MemoLock

/-- No `initlock` while a process is between `acquire` and `release`. -/
def QuietInit (s : MemoLock) (e : MemoLockEvent) (_ : MemoLock) : Prop :=
  ∀ c p, e = .initlock c p → ∀ c', s.inside c' = none

/-- **One step keeps the lock with its holder.** -/
theorem held_step {s s' : MemoLock} {e : MemoLockEvent} (h : s.Held) (hq : QuietInit s e s')
    (hs : memoLockStep e s = some s') : s'.Held := by
  cases e with
  | initlock c p =>
    simp only [memoLockStep] at hs
    split_ifs at hs
    obtain rfl := Option.some.inj hs
    refine ⟨fun c' p' hp' => ?_, h.released⟩
    exact absurd ((hq c p rfl c').symm.trans hp') (Option.some_ne_none p').symm
  | acquire c p =>
    simp only [memoLockStep] at hs
    split_ifs at hs
    split at hs
    · rename_i lk hlk
      obtain ⟨hfree, rfl⟩ := Spinlock.acquire_ok hlk
      obtain rfl := Option.some.inj hs
      refine ⟨fun c' p' hp' => ?_, h.released⟩
      by_cases hc : c' = c
      · exact ⟨rfl, by rw [hc]⟩
      · have hin : s.inside c' = some p' := by simpa [Function.update_of_ne hc] using hp'
        have hlocked := (h.lock c' p' hin).1
        rw [hfree] at hlocked
        cases hlocked
    · cases hs
    · rename_i msg hlk
      have hmsg := Spinlock.acquire_panic hlk
      obtain rfl := Option.some.inj hs
      refine ⟨h.lock, ?_⟩
      rw [hmsg]
      change some "acquire" ≠ some "release"
      decide
  | release c =>
    simp only [memoLockStep] at hs
    split_ifs at hs
    obtain ⟨p, hp, hs⟩ := Option.bind_eq_some_iff.mp hs
    obtain ⟨hlocked, hcpu⟩ := h.lock c p hp
    rw [Spinlock.release_ok hlocked hcpu] at hs
    obtain rfl := Option.some.inj hs
    refine ⟨fun c' p' hp' => ?_, h.released⟩
    by_cases hc : c' = c
    · simp [hc] at hp'
    · have hin : s.inside c' = some p' := by simpa [Function.update_of_ne hc] using hp'
      exact absurd (h.cpu_unique hin hp) hc

theorem held_start : memoLockStart.Held := by
  refine ⟨fun c p hp => ?_, ?_⟩
  · cases hp
  · simp [memoLockStart]

/-- **Memo lock exclusion.** In every state of a run in which `initlock` is called only while no
process is between `acquire` and `release`, at most one process is there and `release` has not
panicked. -/
theorem memoLock_exclusion (es : List MemoLockEvent)
    (h : Along memoLockStep QuietInit es memoLockStart) :
    Throughout memoLockStep MemoLock.Exclusive es memoLockStart := by
  have hheld : Throughout memoLockStep MemoLock.Held es memoLockStart := by
    refine throughout_of_along ?_ held_start h
    intro s e s' hs hq he
    exact held_step hs hq he
  exact hheld.mono fun s hs => hs.exclusive

/-- Two processes on two CPUs, each with a `sys_memo` and a write. -/
theorem memoLock_exclusion_writes :
    Throughout memoLockStep MemoLock.Exclusive
      [.initlock 0 1, .acquire 0 1, .release 0, .initlock 1 2, .acquire 1 2, .release 1]
      memoLockStart := by
  have hq : ∀ {e : MemoLockEvent} {s s' : MemoLock}, (∀ c p, e ≠ .initlock c p) → QuietInit s e s' :=
    fun hne c p he => absurd he (hne c p)
  refine memoLock_exclusion _ fun s₁ h₁ => ⟨fun _ _ _ _ => rfl, fun s₂ h₂ => ⟨hq (by simp),
    fun s₃ h₃ => ⟨hq (by simp), fun s₄ h₄ => ⟨fun _ _ _ c => ?_, fun s₅ h₅ =>
      ⟨hq (by simp), fun s₆ h₆ => ⟨hq (by simp), trivial⟩⟩⟩⟩⟩⟩
  obtain rfl := Option.some.inj h₁
  obtain rfl := Option.some.inj h₂
  obtain rfl := Option.some.inj h₃
  -- the first process is outside again
  show Function.update (Function.update (fun _ => none) 0 (some 1)) 0 none c = none
  rw [Function.update_idem, Function.update_apply, ite_self]

/-- `sys_memo` on CPU 1 while a process on CPU 0 is between `acquire` and `release`: both are. -/
theorem memoLock_reinitialised :
    ¬ ∀ es, Throughout memoLockStep MemoLock.Exclusive es memoLockStart := by
  intro h
  have hrun := h [.acquire 0 1, .initlock 1 2, .acquire 1 2]
  have hend := hrun.end rfl
  exact absurd (hend.unique 0 1 1 2 rfl rfl) (by decide)

theorem release_panics_after_initlock {s s' s'' : MemoLock} {c c' p : ℕ}
    (hi : memoLockStep (.initlock c p) s = some s') (hr : memoLockStep (.release c') s' = some s'') :
    s''.panicked = some "release" := by
  simp only [memoLockStep] at hi
  split_ifs at hi
  obtain rfl := Option.some.inj hi
  simp only [memoLockStep] at hr
  split_ifs at hr
  obtain ⟨q, -, hr⟩ := Option.bind_eq_some_iff.mp hr
  obtain rfl := Option.some.inj hr
  rfl

end OsPlayground
