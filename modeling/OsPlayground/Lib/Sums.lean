import Mathlib.Algebra.BigOperators.Group.Finset.Basic
import Mathlib.Algebra.Order.BigOperators.Group.Finset
import Mathlib.Algebra.Order.Group.Multiset
import Mathlib.Data.Multiset.AddSub
import Mathlib.Tactic.Abel

/-!
# Collections indexed by a finite set

What a system owns is often a sum of multisets over a table: one summand for each entry.

* `sum_change`: the sum after one entry changed.
* `entry o g`: the summand of an optional entry.
* **`not_mem_of_nodup`**: if the whole is without duplicates, what one part has no other part has.
-/

namespace Lib

open Finset

variable {ι α M : Type}

theorem sum_change [DecidableEq ι] [AddCommMonoid M] {s : Finset ι} {i : ι} (hi : i ∈ s)
    {f g : ι → M} (h : ∀ j ∈ s, j ≠ i → g j = f j) :
    ∑ j ∈ s, g j + f i = ∑ j ∈ s, f j + g i := by
  have herase : ∑ j ∈ s.erase i, g j = ∑ j ∈ s.erase i, f j :=
    Finset.sum_congr rfl fun j hj => h j (Finset.mem_of_mem_erase hj) (Finset.ne_of_mem_erase hj)
  rw [← Finset.add_sum_erase s g hi, ← Finset.add_sum_erase s f hi, herase]
  abel

/-- The summand of an optional entry. -/
def entry {β : Type} (o : Option β) (g : β → Multiset α) : Multiset α := o.elim 0 g

section Entry

variable {β : Type} {g : β → Multiset α}

@[simp] theorem entry_none : entry (none : Option β) g = 0 := rfl

@[simp] theorem entry_some (b : β) : entry (some b) g = g b := rfl

end Entry

theorem not_mem_of_nodup {s t : Multiset α} (h : (s + t).Nodup) {a : α} (ha : a ∈ s) : a ∉ t :=
  Multiset.disjoint_left.mp (Multiset.disjoint_of_nodup_add h) ha

end Lib
