import Mathlib.Logic.Function.Basic
import Mathlib.Tactic.SplitIfs
import OsPlayground.Lib.Run

/-!
# Sleep locks

`sleeplock.c`: any number of processes that acquire and release one sleep lock, and the functions
whose guard is `holdingsleep`. Each section under `lk->lk` is one step.

* `Sleeplock`: the lock; `holdingsleep` says whether it is locked, not by whom.
* `LockSys`, `lockStep`: the processes.
* `Owned`: at most one owner, and it is the process that the lock names.
* **`owned_iff`**: the runs in which only the owner passes the guards.
-/

namespace OsPlayground

open Lib

/-- `struct sleeplock`. -/
structure Sleeplock where
  locked : Bool := false
  /-- The process that locked it. -/
  pid : Option ℕ := none

/-- `holdingsleep`. -/
def holdingsleep (lk : Sleeplock) : Bool := lk.locked

/-- The functions with the guard. -/
inductive Guarded
  | iunlock (ref : ℕ)
  | bwrite
  | brelse
  | iderw
  deriving DecidableEq

/-- Those that go on to `releasesleep`. -/
def Guarded.releases : Guarded → Bool
  | .iunlock _ | .brelse => true
  | .bwrite | .iderw => false

/-- The text of its panic. -/
def Guarded.message : Guarded → String
  | .iunlock _ => "iunlock"
  | .bwrite => "bwrite"
  | .brelse => "brelse"
  | .iderw => "iderw: buf not locked"

/-- `iunlock` also panics on an inode without references. -/
def Guarded.unreferenced : Guarded → Bool
  | .iunlock ref => ref < 1
  | .bwrite | .brelse | .iderw => false

/-- The guard. -/
def Guarded.passes (lk : Sleeplock) (g : Guarded) : Bool := holdingsleep lk && !g.unreferenced

/-- Where a process is. -/
inductive LockPc
  | outside
  /-- In `acquiresleep`, before the test of `lk->locked`. -/
  | testing
  /-- In `sleep(lk, &lk->lk)`. -/
  | asleep
  /-- After the guard of `g`. -/
  | passed (g : Guarded)
  deriving DecidableEq

/-- One sleeplock, and where each process stands. -/
structure LockSys where
  lk : Sleeplock
  pc : ℕ → LockPc
  /-- History variable: it has returned from `acquiresleep`, and not called `releasesleep` since. -/
  owns : ℕ → Bool
  panicked : Option String

/-- After `initsleeplock`. -/
def lockStart : LockSys := ⟨{}, fun _ => .outside, fun _ => false, none⟩

/-- A step of a process with the lock. -/
inductive LockEvent
  | acquiresleep (p : ℕ)
  /-- The test in the loop of `acquiresleep`, and what follows it under `lk->lk`. -/
  | test (p : ℕ)
  /-- `wakeup` or `kill` ends the sleep. -/
  | woken (p : ℕ)
  | guard (p : ℕ) (g : Guarded)
  /-- What follows the guard. -/
  | go (p : ℕ)
  /-- `releasesleep` of `iput`, which has called `acquiresleep` itself. -/
  | iput (p : ℕ)

namespace LockSys

/-- `p` goes on at `pc`. -/
def goto (p : ℕ) (pc : LockPc) (s : LockSys) : LockSys := { s with pc := Function.update s.pc p pc }

/-- `releasesleep` in `p`; the sleepers are woken. -/
def releasesleep (p : ℕ) (s : LockSys) : LockSys where
  lk := ⟨false, none⟩
  pc q := if s.pc q = .asleep then .testing else s.pc q
  owns := Function.update s.owns p false
  panicked := s.panicked

end LockSys

/-- One step. -/
def lockStep (e : LockEvent) (s : LockSys) : Option LockSys :=
  if s.panicked.isSome then none
  else
    match e with
    | .acquiresleep p => if s.pc p = .outside then some (s.goto p .testing) else none
    | .test p =>
      if s.pc p = .testing then
        if s.lk.locked then some (s.goto p .asleep)
        else some ({ s with lk := ⟨true, some p⟩, owns := Function.update s.owns p true }.goto p .outside)
      else none
    | .woken p => if s.pc p = .asleep then some (s.goto p .testing) else none
    | .guard p g =>
      if s.pc p = .outside then
        if g.passes s.lk then some (s.goto p (.passed g))
        else some { s with panicked := some g.message }
      else none
    | .go p =>
      match s.pc p with
      | .passed g =>
        if g.releases then some ((s.goto p .outside).releasesleep p) else some (s.goto p .outside)
      | _ => none
    | .iput p => if s.pc p = .outside ∧ s.owns p then some (s.releasesleep p) else none

/-! ## Ownership -/

/-- At most one process owns the lock, and who has passed a guard is the owner. -/
structure Owned (s : LockSys) : Prop where
  one : ∀ p q, s.owns p = true → s.owns q = true → p = q
  guards : ∀ p g, s.pc p = .passed g → s.owns p = true

/-- The lock names its owner. -/
structure LockInv (s : LockSys) : Prop where
  pid : ∀ p, s.owns p = true ↔ s.lk.pid = some p
  locked : s.lk.locked = s.lk.pid.isSome
  guards : ∀ p g, s.pc p = .passed g → s.owns p = true

/-- The condition on a step: a guarded function is called by the owner, or while nobody owns the
lock, or is `iunlock` of an inode without references. -/
def ByOwner (s : LockSys) (e : LockEvent) (_ : LockSys) : Prop :=
  match e with
  | .guard p g => s.owns p = true ∨ (∀ q, s.owns q = false) ∨ g.unreferenced = true
  | _ => True

variable {s s' : LockSys} {e : LockEvent} {p : ℕ}

theorem lockStart_inv : LockInv lockStart where
  pid p := by simp [lockStart]
  locked := rfl
  guards p g h := by cases h

namespace LockInv

theorem owned (h : LockInv s) : Owned s where
  one p q hp hq := by
    have := ((h.pid p).mp hp).symm.trans ((h.pid q).mp hq)
    simpa using this
  guards := h.guards

theorem owner (h : LockInv s) (hl : s.lk.locked = true) : ∃ q, s.owns q = true := by
  rw [h.locked] at hl
  obtain ⟨q, hq⟩ := Option.isSome_iff_exists.mp hl
  exact ⟨q, (h.pid q).mpr hq⟩

theorem goto (h : LockInv s) {pc : LockPc} (hpc : ∀ g, pc = .passed g → s.owns p = true) :
    LockInv (s.goto p pc) where
  pid := h.pid
  locked := h.locked
  guards q g hq := by
    by_cases hqp : q = p
    · subst hqp
      exact hpc g (by simpa [LockSys.goto] using hq)
    · exact h.guards q g (by simpa [LockSys.goto, hqp] using hq)

/-- The process that finds the lock free becomes its owner. -/
theorem take (h : LockInv s) (hl : s.lk.locked = false) :
    LockInv ({ s with lk := ⟨true, some p⟩, owns := Function.update s.owns p true }.goto p
      .outside) := by
  have hnone : s.lk.pid = none := by
    rw [h.locked] at hl
    simpa using hl
  have hno : ∀ q, s.owns q = false := fun q => by
    by_contra hq
    have := (h.pid q).mp (by simpa using hq)
    rw [hnone] at this
    cases this
  refine ⟨fun q => ?_, rfl, fun q g hq => ?_⟩
  · by_cases hqp : q = p
    · subst hqp
      simp [LockSys.goto]
    · simp [LockSys.goto, hqp, hno q, Ne.symm hqp]
  · by_cases hqp : q = p
    · subst hqp
      simp [LockSys.goto] at hq
    · have := h.guards q g (by simpa [LockSys.goto, hqp] using hq)
      rw [hno q] at this
      cases this

theorem releasesleep (h : LockInv s) (hp : s.owns p = true) (hpc : ∀ g, s.pc p ≠ .passed g) :
    LockInv (s.releasesleep p) := by
  have hother : ∀ q, q ≠ p → s.owns q = false := fun q hq => by
    by_contra hqo
    exact hq (h.owned.one q p (by simpa using hqo) hp)
  refine ⟨fun q => ?_, rfl, fun q g hq => ?_⟩
  · by_cases hqp : q = p
    · subst hqp
      simp [LockSys.releasesleep]
    · simp [LockSys.releasesleep, hqp, hother q hqp]
  · have hq' : s.pc q = .passed g := by
      simp only [LockSys.releasesleep] at hq
      split_ifs at hq with ha
      exact hq
    by_cases hqp : q = p
    · subst hqp
      exact absurd hq' (hpc g)
    · have := h.guards q g hq'
      rw [hother q hqp] at this
      cases this

theorem panic (h : LockInv s) (m : String) : LockInv { s with panicked := some m } :=
  ⟨h.pid, h.locked, h.guards⟩

end LockInv

theorem Guarded.passes_iff {lk : Sleeplock} {g : Guarded} :
    g.passes lk = true ↔ lk.locked = true ∧ g.unreferenced = false := by
  simp [passes, holdingsleep]

theorem LockInv.owns_of_passes {g : Guarded} (h : LockInv s) (hby : ByOwner s (.guard p g) s')
    (hpass : g.passes s.lk = true) : s.owns p = true := by
  obtain ⟨hl, hu⟩ := Guarded.passes_iff.mp hpass
  rcases hby with hown | hno | hun
  · exact hown
  · obtain ⟨q, hq⟩ := h.owner hl
    rw [hno q] at hq
    cases hq
  · rw [hu] at hun
    cases hun

/-- **A step that meets the condition** keeps the lock with its owner. -/
theorem lockInv_step (h : LockInv s) (hby : ByOwner s e s') (hs : lockStep e s = some s') :
    LockInv s' := by
  unfold lockStep at hs
  split at hs
  · cases hs
  cases e with
  | acquiresleep p =>
    obtain ⟨-, hs⟩ := Option.ite_none_right_eq_some.mp hs
    exact Option.some.inj hs ▸ h.goto fun g hg => by cases hg
  | test p =>
    obtain ⟨-, hs⟩ := Option.ite_none_right_eq_some.mp hs
    cases hl : s.lk.locked with
    | true =>
      rw [if_pos hl] at hs
      exact Option.some.inj hs ▸ h.goto fun g hg => by cases hg
    | false =>
      rw [if_neg (by simp [hl])] at hs
      exact Option.some.inj hs ▸ h.take hl
  | woken p =>
    obtain ⟨-, hs⟩ := Option.ite_none_right_eq_some.mp hs
    exact Option.some.inj hs ▸ h.goto fun g hg => by cases hg
  | guard p g =>
    obtain ⟨-, hs⟩ := Option.ite_none_right_eq_some.mp hs
    split at hs
    · rename_i hpass
      have hown := h.owns_of_passes hby hpass
      exact Option.some.inj hs ▸ h.goto fun _ _ => hown
    · exact Option.some.inj hs ▸ h.panic _
  | go p =>
    dsimp only at hs
    split at hs
    · rename_i g hg
      have hidle : LockInv (s.goto p .outside) := h.goto fun g hg => by cases hg
      split at hs
      · exact Option.some.inj hs ▸ hidle.releasesleep (h.guards p g hg)
          (by simp [LockSys.goto])
      · exact Option.some.inj hs ▸ hidle
    · cases hs
  | iput p =>
    obtain ⟨⟨hp, hown⟩, hs⟩ := Option.ite_none_right_eq_some.mp hs
    exact Option.some.inj hs ▸ h.releasesleep hown (by simp [hp])

/-- **A guard that somebody else passes** breaks the property. -/
theorem byOwner_of_owned (h : LockInv s) (hs : lockStep e s = some s') (ho : Owned s') :
    ByOwner s e s' := by
  cases e with
  | guard p g =>
    unfold lockStep at hs
    split at hs
    · cases hs
    obtain ⟨-, hs⟩ := Option.ite_none_right_eq_some.mp hs
    split at hs
    · obtain rfl := Option.some.inj hs
      exact .inl (ho.guards p g (by simp [LockSys.goto]))
    · rename_i hpass
      by_cases hu : g.unreferenced = true
      · exact .inr (.inr hu)
      · refine .inr (.inl fun q => ?_)
        by_contra hq
        have hpid := (h.pid q).mp (by simpa using hq)
        have hl : s.lk.locked = true := by rw [h.locked, hpid]; rfl
        exact hpass (Guarded.passes_iff.mpr ⟨hl, by simpa using hu⟩)
  | acquiresleep p | test p | woken p | go p | iput p => trivial

/-- **When only the owner passes the guards.** For any number of processes and any interleaving: at
most one process owns the lock, and the guards of `iunlock`, `bwrite`, `brelse` and `iderw` pass for
the owner only, throughout a run, if and only if each is called by the owner or while nobody owns
the lock (or is `iunlock` of an inode without references). -/
theorem owned_iff (es : List LockEvent) :
    Throughout lockStep Owned es lockStart ↔ Along lockStep ByOwner es lockStart :=
  throughout_iff_along_of_keeps (I := LockInv) (P := ByOwner) (fun _ => LockInv.owned)
    (fun _ _ _ => lockInv_step) (fun _ _ _ => byOwner_of_owned) lockStart_inv

/-- Process 2 calls `brelse` while process 1 owns the lock; its guard passes, and then process 3
owns the lock as well. -/
theorem stranger_passes : ∃ s, run lockStep [.acquiresleep 1, .test 1, .guard 2 .brelse, .go 2,
    .acquiresleep 3, .test 3] lockStart = some s ∧ s.owns 1 = true ∧ s.owns 3 = true ∧
    ¬ Throughout lockStep Owned [.acquiresleep 1, .test 1, .guard 2 .brelse, .go 2, .acquiresleep 3,
      .test 3] lockStart := by
  have hrun : ((run lockStep [.acquiresleep 1, .test 1, .guard 2 .brelse, .go 2, .acquiresleep 3,
      .test 3] lockStart).any fun s => s.owns 1 && s.owns 3) = true := by decide +kernel
  obtain ⟨s, hs, hP⟩ := (Option.any_eq_true _ _).mp hrun
  obtain ⟨h1, h3⟩ := Bool.and_eq_true_iff.mp hP
  exact ⟨s, hs, h1, h3, fun h => absurd ((h.end hs).one 1 3 h1 h3) (by decide)⟩

end OsPlayground
