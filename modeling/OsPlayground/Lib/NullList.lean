import Mathlib.Data.List.Nodup
import Mathlib.Logic.Function.Basic

/-!
# Null-terminated lists in a table of links

A list is kept as a pointer to its first element and one link for each element; the link of the last
one is null. Links of elements that are not on the list may be anything.

* `IsNullList next h l`: from `h` on, the links are those of `l`.
* `IsNullList.congr`: only the links of the elements matter.
* `lastFrom`: walking to the end; **`IsNullList.snoc`**: linking an element there appends it.
-/

namespace Lib

variable {α : Type}

/-- From `h` on, the links give the elements of `l` and then null. -/
def IsNullList (next : α → Option α) : Option α → List α → Prop
  | h, [] => h = none
  | h, a :: l => h = some a ∧ IsNullList next (next a) l

/-- The last element, walking at most `n` links from `a`. -/
def lastFrom (next : α → Option α) : ℕ → α → α
  | 0, a => a
  | n + 1, a =>
    match next a with
    | none => a
    | some b => lastFrom next n b

namespace IsNullList

variable {next next' : α → Option α} {h : Option α} {a b : α} {l : List α}

theorem head_eq (hl : IsNullList next h l) : h = l.head? := by
  cases l with
  | nil => exact hl
  | cons a l => exact hl.1

theorem tail (hl : IsNullList next h (a :: l)) : IsNullList next (next a) l := hl.2

theorem congr (hl : IsNullList next h l) (hn : ∀ x ∈ l, next' x = next x) : IsNullList next' h l := by
  induction l generalizing h with
  | nil => exact hl
  | cons a l ih =>
    refine ⟨hl.1, ?_⟩
    rw [hn a List.mem_cons_self]
    exact ih hl.2 fun x hx => hn x (List.mem_cons_of_mem a hx)

theorem lastFrom_eq (hl : IsNullList next h (a :: l)) {n : ℕ} (hn : l.length ≤ n) :
    lastFrom next n a = (a :: l).getLast (List.cons_ne_nil a l) := by
  induction l generalizing h a n with
  | nil =>
    have hnone : next a = none := hl.2
    cases n with
    | zero => rfl
    | succ n =>
      rw [lastFrom, hnone]
      rfl
  | cons b l ih =>
    obtain ⟨hb, hrest⟩ := hl.2
    cases n with
    | zero => exact absurd hn (by simp)
    | succ n =>
      rw [lastFrom, hb, List.getLast_cons (List.cons_ne_nil b l)]
      exact ih ⟨rfl, hrest⟩ (Nat.le_of_succ_le_succ hn)

/-- **Appending** an element that is not on the list. -/
theorem snoc [DecidableEq α] (hl : IsNullList next h (a :: l)) (hnodup : (a :: l).Nodup)
    (hb : b ∉ a :: l) (hnull : next b = none) :
    IsNullList (Function.update next ((a :: l).getLast (List.cons_ne_nil a l)) (some b)) h
      (a :: l ++ [b]) := by
  induction l generalizing h a with
  | nil =>
    have hne : b ≠ a := fun h => hb (h ▸ List.mem_singleton_self a)
    refine ⟨hl.1, ?_, ?_⟩
    · exact Function.update_self _ _ _
    · show Function.update next a (some b) b = none
      rw [Function.update_of_ne hne, hnull]
  | cons c l ih =>
    obtain ⟨hc, hrest⟩ := hl.2
    have hnodup' := (List.nodup_cons.1 hnodup).2
    have hmore := ih ⟨rfl, hrest⟩ hnodup' fun hm => hb (List.mem_cons_of_mem a hm)
    have hne : a ≠ (c :: l).getLast (List.cons_ne_nil c l) := fun h =>
      (List.nodup_cons.1 hnodup).1 (h ▸ List.getLast_mem _)
    refine ⟨hl.1, ?_⟩
    rw [List.getLast_cons (List.cons_ne_nil c l), Function.update_of_ne hne, hc]
    exact hmore

end IsNullList

end Lib
