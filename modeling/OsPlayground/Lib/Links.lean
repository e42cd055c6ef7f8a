import Mathlib.Data.List.Basic
import Mathlib.Data.List.Chain
import Mathlib.Data.List.Nodup
import Mathlib.Logic.Function.Basic

/-!
# FIFO lists in a table of links

A FIFO list is kept as `head`, `last`, `count` and one link `next` for each element. Only `count`
says where the list ends: the link of the last element, `head` and `last` of an empty list, and the
links of elements that left the list are stale and may be anything.

* `follow next h n`: the elements met by following `next` from `h`, `n` of them.
* `IsQueue next head last count l`: the four represent the list `l`.
* **`IsQueue.follow_eq`**: the list is what following the links gives; `IsQueue.last_of_iterate`.
* `IsQueue.push`, `IsQueue.push_empty`, `IsQueue.pop`, `IsQueue.congr`: the operations.
* `Waited log a b`: by the history `log` of pushes, `a` has waited longer than `b`; `Waited.snoc`.
-/

namespace Lib

variable {α : Type}

/-- The elements met by following `next` from `h`, `n` of them. -/
def follow (next : α → Option α) : Option α → ℕ → List α
  | _, 0 => []
  | none, _ + 1 => []
  | some a, n + 1 => a :: follow next (next a) n

/-- `head`, `last`, `count` and the links represent the list `l`. -/
structure IsQueue (next : α → Option α) (head last : Option α) (count : ℕ) (l : List α) : Prop where
  nodup : l.Nodup
  count_eq : count = l.length
  head_eq : l ≠ [] → head = l.head?
  last_eq : l ≠ [] → last = l.getLast?
  linked : l.IsChain fun a b => next a = some b

namespace IsQueue

variable {next next' : α → Option α} {head last : Option α} {count : ℕ} {l : List α}

theorem empty (next : α → Option α) (head last : Option α) : IsQueue next head last 0 [] :=
  ⟨List.nodup_nil, rfl, fun h => absurd rfl h, fun h => absurd rfl h, List.isChain_nil⟩

theorem eq_nil (h : IsQueue next head last 0 l) : l = [] :=
  List.eq_nil_of_length_eq_zero h.count_eq.symm

theorem ne_nil (h : IsQueue next head last count l) (hc : 0 < count) : l ≠ [] := by
  rintro rfl
  have := h.count_eq
  simp at this
  omega

theorem head_cons {a : α} (h : IsQueue next head last count (a :: l)) : head = some a :=
  h.head_eq (List.cons_ne_nil a l)

theorem next_cons {a b : α} (h : IsQueue next head last count (a :: b :: l)) : next a = some b :=
  (List.isChain_cons_cons.mp h.linked).1

/-- **Popping the front.** The link of the removed element becomes stale. -/
theorem pop {a : α} (h : IsQueue next head last count (a :: l)) :
    IsQueue next (next a) last (count - 1) l := by
  refine ⟨(List.nodup_cons.mp h.nodup).2, by rw [h.count_eq]; rfl, fun hl => ?_, fun hl => ?_,
    h.linked.tail⟩
  · obtain ⟨b, l, rfl⟩ := List.exists_cons_of_ne_nil hl
    exact h.next_cons
  · rw [h.last_eq (List.cons_ne_nil a l)]
    obtain ⟨b, l, rfl⟩ := List.exists_cons_of_ne_nil hl
    exact List.getLast?_cons_cons

/-- **What following the links gives.** -/
theorem follow_eq (h : IsQueue next head last count l) : follow next head count = l := by
  induction l generalizing head count with
  | nil => rw [h.count_eq]; rfl
  | cons a l ih =>
    have hc : count = (count - 1) + 1 := by rw [h.count_eq]; rfl
    rw [hc, h.head_cons, follow, ih h.pop]

theorem unique {l' : List α} (h : IsQueue next head last count l)
    (h' : IsQueue next head last count l') : l = l' := by
  rw [← h.follow_eq, h'.follow_eq]

theorem last_of_iterate (h : IsQueue next head last count l) (hc : 0 < count) :
    (fun o : Option α => o.bind next)^[count - 1] head = last := by
  induction l generalizing head count with
  | nil => exact absurd rfl (h.ne_nil hc)
  | cons a l ih =>
    rw [h.count_eq, h.head_cons]
    cases l with
    | nil => rw [h.last_eq (by simp)]; rfl
    | cons b l =>
      have hp := h.pop
      have hc' : 0 < count - 1 := by rw [h.count_eq]; simp
      have := ih hp hc'
      rw [hp.count_eq] at this
      simpa using this

theorem congr (h : IsQueue next head last count l) (hn : ∀ a ∈ l, next' a = next a) :
    IsQueue next' head last count l :=
  ⟨h.nodup, h.count_eq, h.head_eq, h.last_eq, h.linked.imp_of_mem_imp fun a b ha _ hab => by
    rw [hn a ha, hab]⟩

/-- **Pushing onto an empty list.** -/
theorem push_empty (next : α → Option α) (a : α) : IsQueue next (some a) (some a) 1 [a] :=
  ⟨List.nodup_singleton a, rfl, fun _ => rfl, fun _ => rfl, List.isChain_singleton a⟩

variable [DecidableEq α]

/-- **Pushing onto a non-empty list.** The new element's link is set to the head (it is never
followed), the old last element's to the new element. -/
theorem push {a z : α} (h : IsQueue next head last count l) (ha : a ∉ l)
    (hz : l.getLast? = some z) :
    IsQueue (Function.update (Function.update next a head) z (some a)) head (some a) (count + 1)
      (l ++ [a]) := by
  have hl : l ≠ [] := by rintro rfl; simp at hz
  obtain ⟨m, rfl⟩ : ∃ m, l = m ++ [z] := by
    obtain ⟨m, b, rfl⟩ := (List.eq_nil_or_concat l).resolve_left hl
    simp at hz
    exact ⟨m, by rw [hz, List.concat_eq_append]⟩
  have hnd := h.nodup
  refine ⟨?_, by simp [h.count_eq], fun _ => ?_, fun _ => by simp, ?_⟩
  · rw [List.nodup_append]
    refine ⟨hnd, List.nodup_singleton a, fun x hx y hy => ?_⟩
    obtain rfl := List.mem_singleton.mp hy
    rintro rfl
    exact ha hx
  · rw [h.head_eq hl]
    cases m <;> rfl
  · have hza : z ≠ a := by rintro rfl; simp at ha
    have hzm : z ∉ m := by
      intro hz'
      rw [List.nodup_append] at hnd
      exact hnd.2.2 z hz' z (List.mem_singleton_self z) rfl
    rw [List.isChain_append]
    refine ⟨?_, List.isChain_singleton a, fun x hx y hy => ?_⟩
    · rw [List.isChain_append]
      obtain ⟨hm, -, hmz⟩ := List.isChain_append.mp h.linked
      have hne : ∀ x ∈ m, Function.update (Function.update next a head) z (some a) x = next x := by
        intro x hx
        have hxz : x ≠ z := by rintro rfl; exact hzm hx
        have hxa : x ≠ a := by rintro rfl; exact ha (List.mem_append_left _ hx)
        rw [Function.update_of_ne hxz, Function.update_of_ne hxa]
      refine ⟨hm.imp_of_mem_imp fun x y hx _ hxy => by rw [hne x hx, hxy],
        List.isChain_singleton z, fun x hx y hy => ?_⟩
      rw [hne x (List.mem_of_getLast? hx)]
      exact hmz x hx y hy
    · simp only [List.getLast?_append, List.getLast?_singleton, Option.some_or, Option.mem_def,
        Option.some.injEq, List.head?_cons] at hx hy
      subst hx hy
      exact Function.update_self _ _ _

end IsQueue

/-! ## Waiting times -/

/-- `a` was pushed before some push of `b` and not since: it has waited longer than `b`. -/
def Waited (log : List α) (a b : α) : Prop :=
  ∃ l₁ l₂, log = l₁ ++ b :: l₂ ∧ a ∈ l₁ ∧ a ∉ b :: l₂

theorem Waited.snoc {log : List α} {a b c : α} (h : Waited log a b) (hc : a ≠ c) :
    Waited (log ++ [c]) a b := by
  obtain ⟨l₁, l₂, rfl, h₁, h₂⟩ := h
  refine ⟨l₁, l₂ ++ [c], by simp, h₁, ?_⟩
  rw [← List.cons_append, List.mem_append, not_or]
  exact ⟨h₂, by simpa using hc⟩

theorem Waited.last {log : List α} {a c : α} (h : a ∈ log) (hc : a ≠ c) :
    Waited (log ++ [c]) a c :=
  ⟨log, [], rfl, h, by simpa using hc⟩

theorem pairwise_waited_snoc {log l : List α} {c : α} (h : l.Pairwise (Waited log))
    (hl : ∀ a ∈ l, a ∈ log) (hc : c ∉ l) : (l ++ [c]).Pairwise (Waited (log ++ [c])) := by
  have hne : ∀ a ∈ l, a ≠ c := by
    rintro a ha rfl
    exact hc ha
  rw [List.pairwise_append]
  refine ⟨h.imp_of_mem fun ha _ hab => hab.snoc (hne _ ha), List.pairwise_singleton _ _, ?_⟩
  intro a ha b hb
  obtain rfl := List.mem_singleton.mp hb
  exact .last (hl a ha) (hne a ha)

end Lib
