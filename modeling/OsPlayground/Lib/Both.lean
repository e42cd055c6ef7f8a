import Mathlib.Logic.Basic

/-!
# Two computations that agree

* `Both R x y`: `x` and `y` both succeed, with related results, or both fail.
* `Both.bind`: such computations compose.
* `Both.ok_right`, `Both.error_right`: from the outcome of one to that of the other.
-/

namespace Lib

variable {ε ε' α β γ δ : Type}

/-- Both succeed, with related results, or both fail. -/
inductive Both (R : α → β → Prop) : Except ε α → Except ε' β → Prop
  | ok {a b} : R a b → Both R (.ok a) (.ok b)
  | error (e : ε) (e' : ε') : Both R (.error e) (.error e')

namespace Both

variable {R : α → β → Prop} {R' : γ → δ → Prop} {x : Except ε α} {y : Except ε' β}

theorem bind {f : α → Except ε γ} {g : β → Except ε' δ} (h : Both R x y)
    (hf : ∀ a b, R a b → Both R' (f a) (g b)) : Both R' (x.bind f) (y.bind g) := by
  cases h with
  | ok hr => exact hf _ _ hr
  | error e e' => exact .error e e'

theorem ok_right {b : β} (h : Both R x y) (hy : y = .ok b) : ∃ a, x = .ok a ∧ R a b := by
  subst hy
  cases h with
  | ok hr => exact ⟨_, rfl, hr⟩

theorem error_right {e' : ε'} (h : Both R x y) (hy : y = .error e') : ∃ e, x = .error e := by
  subst hy
  cases h with
  | error e e' => exact ⟨e, rfl⟩

end Both

theorem bind_ok {x : Except ε α} {f : α → Except ε γ} {c : γ} (h : x.bind f = .ok c) :
    ∃ a, x = .ok a ∧ f a = .ok c := by
  cases x with
  | error e => cases h
  | ok a => exact ⟨a, rfl, h⟩

theorem map_ok {x : Except ε α} {f : α → γ} {c : γ} (h : x.map f = .ok c) :
    ∃ a, x = .ok a ∧ f a = c := by
  cases x with
  | error e => cases h
  | ok a => exact ⟨a, rfl, Except.ok.inj h⟩

end Lib
