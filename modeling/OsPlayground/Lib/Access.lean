import Mathlib.Data.List.Basic
import Mathlib.Data.List.Range
import Mathlib.Data.Nat.Notation

/-!
# Computations that touch memory

A computation that may fail and that leaves a list of the addresses it read or wrote.

* `Access`, with `fail`, `touch` and the monad operations.
* `Access.Within`: every address touched is below a bound; **`within_bind`** and its companions.
* `span`: the bytes of a block, with addresses modulo the size of a word; `span_within`.
-/

namespace Lib

variable {α β : Type}

/-- The addresses touched, in order, and the result if it did not fail. -/
structure Access (α : Type) where
  touched : List ℕ
  result : Option α

namespace Access

/-- Stop here. -/
def fail : Access α := ⟨[], none⟩

/-- Read or write at `as`. -/
def touch (as : List ℕ) : Access Unit := ⟨as, some ()⟩

/-- No access, and the result `a`. -/
def ret (a : α) : Access α := ⟨[], some a⟩

/-- First `m`, then `f` of its result, if it has one. -/
def andThen (m : Access α) (f : α → Access β) : Access β :=
  match m.result with
  | none => ⟨m.touched, none⟩
  | some a => ⟨m.touched ++ (f a).touched, (f a).result⟩

instance : Monad Access where
  pure := ret
  bind := andThen

/-- Go on only under the condition `c`. -/
def require (c : Prop) [Decidable c] : Access Unit := if c then ret () else fail

/-- Every address touched is below `n`. -/
def Within (n : ℕ) (m : Access α) : Prop := ∀ a ∈ m.touched, a < n

variable {m : Access α} {f : α → Access β} {n : ℕ} {a : α} {b : β}

theorem result_bind : (m >>= f).result = some b ↔ ∃ a, m.result = some a ∧ (f a).result = some b := by
  change (andThen m f).result = some b ↔ _
  unfold andThen
  cases m.result with
  | none => simp
  | some a => simp

theorem within_fail : (fail : Access α).Within n :=
  fun _ h => absurd h List.not_mem_nil

theorem within_ret (a : α) : (ret a).Within n := fun _ h => absurd h List.not_mem_nil

theorem within_pure (a : α) : (pure a : Access α).Within n :=
  fun _ h => absurd h List.not_mem_nil

theorem within_touch {as : List ℕ} : (touch as).Within n ↔ ∀ a ∈ as, a < n := Iff.rfl

/-- **One after the other.** -/
theorem within_bind : (m >>= f).Within n ↔
    m.Within n ∧ ∀ a, m.result = some a → (f a).Within n := by
  change (andThen m f).Within n ↔ _
  unfold andThen Within
  cases m.result with
  | none => simp
  | some a =>
    simp only [List.mem_append, Option.some.injEq, forall_eq']
    exact ⟨fun h => ⟨fun x hx => h x (.inl hx), fun x hx => h x (.inr hx)⟩,
      fun h x hx => hx.elim (h.1 x) (h.2 x)⟩

theorem within_require {c : Prop} [Decidable c] : (require c).Within n := by
  unfold require
  split
  · exact within_ret ()
  · exact within_fail

theorem require_result {c : Prop} [Decidable c] {u : Unit} (h : (require c).result = some u) : c := by
  unfold require at h
  split at h
  · assumption
  · cases h

end Access

/-- The `n` bytes from `a` on, in an address space of `w` bytes. -/
def span (w a n : ℕ) : List ℕ := (List.range n).map fun i => (a + i) % w

theorem span_within {w a n m : ℕ} (hm : m ≤ w) (h : a + n ≤ m) : ∀ x ∈ span w a n, x < m := by
  intro x hx
  obtain ⟨i, hi, rfl⟩ := List.mem_map.mp hx
  have := List.mem_range.mp hi
  rw [Nat.mod_eq_of_lt (by omega)]
  omega

end Lib
