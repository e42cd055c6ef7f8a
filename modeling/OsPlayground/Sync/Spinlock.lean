import Mathlib.Data.Nat.Notation
import Mathlib.Tactic.SplitIfs

/-!
# Spin locks

`spinlock.c`: a lock with the CPU that holds it. Between `acquire` and `release` interrupts are off
on that CPU, so no other process runs there; the models that use locks keep track of this.

* `initlock`, `acquire`, `release`, `holding`.
* `acquire_ok`, `release_ok`: when they succeed.
-/

namespace OsPlayground

/-- `struct spinlock`, `cpu` by number. -/
structure Spinlock where
  locked : Bool := false
  cpu : Option ℕ := none
  deriving DecidableEq

namespace Spinlock

/-- `initlock`. -/
def initlock : Spinlock := {}

/-- `holding` on the CPU `c`. -/
def holding (c : ℕ) (lk : Spinlock) : Bool := lk.locked && lk.cpu = some c

/-- What a lock operation does: it goes on, spins, or panics. -/
inductive Outcome
  | ok (lk : Spinlock)
  | spin
  | panic (s : String)

/-- `acquire` on the CPU `c`. -/
def acquire (c : ℕ) (lk : Spinlock) : Outcome :=
  if lk.holding c then .panic "acquire"
  else if lk.locked then .spin
  else .ok ⟨true, some c⟩

/-- `release` on the CPU `c`. -/
def release (c : ℕ) (lk : Spinlock) : Outcome :=
  if lk.holding c then .ok ⟨false, none⟩ else .panic "release"

variable {c : ℕ} {lk lk' : Spinlock} {s : String}

theorem holding_iff : lk.holding c = true ↔ lk.locked = true ∧ lk.cpu = some c := by
  simp [holding]

theorem acquire_ok (h : lk.acquire c = .ok lk') : lk.locked = false ∧ lk' = ⟨true, some c⟩ := by
  unfold acquire at h
  split_ifs at h with h₁ h₂
  obtain rfl := Outcome.ok.inj h
  exact ⟨Bool.eq_false_iff.mpr h₂, rfl⟩

theorem acquire_panic (h : lk.acquire c = .panic s) : s = "acquire" := by
  unfold acquire at h
  split_ifs at h
  exact (Outcome.panic.inj h).symm

theorem release_ok (h : lk.locked = true) (hc : lk.cpu = some c) :
    lk.release c = .ok ⟨false, none⟩ :=
  if_pos (holding_iff.mpr ⟨h, hc⟩)

end Spinlock

end OsPlayground
