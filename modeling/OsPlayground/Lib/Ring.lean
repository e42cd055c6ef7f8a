import Mathlib.Data.List.GetD
import Mathlib.Data.Nat.ModEq
import Mathlib.Logic.Function.Basic

/-!
# Ring buffers with wrapping counters

A ring of `cap` cells is read at `r` and written at `w`, two counters modulo `M`; the cell of a
counter is its remainder modulo `cap`, which divides `M`.

* `Ahead cap M r w n`: the counter `w` is `n` steps ahead of `r`; `Ahead.push`, `Ahead.pop`,
  `Ahead.eq_iff`, `Ahead.full_iff`.
* `Ring cap data r s`: from `r` on the cells hold `s`; **`Ring.push`**, **`Ring.pop`**, `Ring.of_append`.
-/

namespace Lib

variable {α : Type}

/-! ## Counters -/

/-- The counter `w` is `n` steps ahead of the counter `r`, and the ring is not more than full. -/
structure Ahead (cap M r w n : ℕ) : Prop where
  write : w = (r + n) % M
  read : r < M
  room : n ≤ cap

section Counters

variable {cap M r w n : ℕ}

theorem ahead_start (hM : 0 < M) : Ahead cap M 0 0 0 := ⟨by simp, hM, Nat.zero_le _⟩

theorem Ahead.push (h : Ahead cap M r w n) (hn : n < cap) : Ahead cap M r ((w + 1) % M) (n + 1) := by
  refine ⟨?_, h.read, hn⟩
  rw [h.write, Nat.mod_add_mod, Nat.add_assoc]

theorem Ahead.pop (h : Ahead cap M r w (n + 1)) : Ahead cap M ((r + 1) % M) w n := by
  refine ⟨?_, Nat.mod_lt _ (Nat.zero_lt_of_lt h.read), Nat.le_of_succ_le h.room⟩
  rw [h.write, Nat.mod_add_mod, Nat.add_assoc, Nat.add_comm 1 n]

theorem Ahead.eq_iff (h : Ahead cap M r w n) (hcap : cap < M) : r = w ↔ n = 0 := by
  have hn : n < M := Nat.lt_of_le_of_lt h.room hcap
  constructor
  · intro he
    have hmod : (r + n) % M = (r + 0) % M := by
      rw [← h.write, ← he, Nat.add_zero, Nat.mod_eq_of_lt h.read]
    have := Nat.ModEq.add_left_cancel' r (hmod : r + n ≡ r + 0 [MOD M])
    rwa [Nat.ModEq, Nat.mod_eq_of_lt hn, Nat.zero_mod] at this
  · rintro rfl
    rw [h.write, Nat.add_zero, Nat.mod_eq_of_lt h.read]

theorem Ahead.full_iff (h : Ahead cap M r w n) (hcap : cap < M) : w = (r + cap) % M ↔ n = cap := by
  have hn : n < M := Nat.lt_of_le_of_lt h.room hcap
  constructor
  · intro he
    have hmod : (r + n) % M = (r + cap) % M := by rw [← h.write, he]
    have := Nat.ModEq.add_left_cancel' r (hmod : r + n ≡ r + cap [MOD M])
    rwa [Nat.ModEq, Nat.mod_eq_of_lt hn, Nat.mod_eq_of_lt hcap] at this
  · rintro rfl
    exact h.write

theorem Ahead.sub_eq (h : Ahead cap M r w n) (hcap : cap < M) : (w + M - r) % M = n := by
  have hn : n < M := Nat.lt_of_le_of_lt h.room hcap
  have hle : r ≤ M := Nat.le_of_lt h.read
  have hw : w < M := by
    rw [h.write]
    exact Nat.mod_lt _ (Nat.zero_lt_of_lt h.read)
  have key : (r + (w + M - r)) % M = (r + n) % M := by
    have hsum : r + (w + M - r) = w + M := by omega
    rw [hsum, Nat.add_mod_right, ← h.write, Nat.mod_eq_of_lt hw]
  have := Nat.ModEq.add_left_cancel' r (key : r + (w + M - r) ≡ r + n [MOD M])
  rwa [Nat.ModEq, Nat.mod_eq_of_lt hn] at this

end Counters

/-! ## Cells -/

/-- From the counter `r` on, the cells hold `s`. -/
def Ring (cap : ℕ) (data : ℕ → α) (r : ℕ) (s : List α) : Prop :=
  ∀ i (h : i < s.length), data ((r + i) % cap) = s[i]

section Cells

variable {cap M r w : ℕ} {data : ℕ → α} {s t : List α} {a : α}

theorem ring_nil : Ring cap data r [] := fun i h => absurd h (Nat.not_lt_zero i)

theorem cell_ne {i n : ℕ} (hi : i < n) (hn : n < cap) : (r + i) % cap ≠ (r + n) % cap := by
  intro he
  have hcancel := Nat.ModEq.add_left_cancel' r (he : r + i ≡ r + n [MOD cap])
  rw [Nat.ModEq, Nat.mod_eq_of_lt (hi.trans hn), Nat.mod_eq_of_lt hn] at hcancel
  omega

/-- **Writing at the end.** -/
theorem Ring.push (h : Ring cap data r s) (hs : s.length < cap) (hM : cap ∣ M)
    (hw : w = (r + s.length) % M) :
    Ring cap (Function.update data (w % cap) a) r (s ++ [a]) := by
  intro i hi
  have hcell : w % cap = (r + s.length) % cap := by rw [hw, Nat.mod_mod_of_dvd _ hM]
  rw [List.length_append, List.length_singleton] at hi
  rw [hcell]
  by_cases hlt : i < s.length
  · rw [Function.update_of_ne (cell_ne hlt hs), List.getElem_append_left hlt, h i hlt]
  · obtain rfl : i = s.length := by omega
    rw [Function.update_self, List.getElem_concat_length rfl]

/-- **Reading at the front.** -/
theorem Ring.pop (h : Ring cap data r (a :: s)) (hM : cap ∣ M) :
    data (r % cap) = a ∧ Ring cap data ((r + 1) % M) s := by
  refine ⟨h 0 (Nat.zero_lt_succ _), fun i hi => ?_⟩
  have := h (i + 1) (Nat.succ_lt_succ hi)
  rw [List.getElem_cons_succ, ← Nat.add_assoc, Nat.add_right_comm] at this
  rw [← this, ← Nat.mod_mod_of_dvd ((r + 1) % M + i) hM, Nat.mod_add_mod, Nat.mod_mod_of_dvd _ hM]

theorem Ring.of_append (h : Ring cap data r (s ++ t)) : Ring cap data r s := by
  intro i hi
  have := h i (by rw [List.length_append]; omega)
  rwa [List.getElem_append_left hi] at this

theorem Ring.last (h : Ring cap data r (s ++ [a])) : data ((r + s.length) % cap) = a := by
  have := h s.length (by simp)
  rwa [List.getElem_concat_length rfl] at this

end Cells

end Lib
