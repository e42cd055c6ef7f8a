import Mathlib.Data.List.Chain
import Mathlib.Data.List.Nodup
import Mathlib.Logic.Function.Basic

/-!
# Circular singly linked lists

* `Round next a l`: following `next` from `a` gives the elements `l` and then `a` again.
* `Round.rotate`: the same circle from another of its elements.
* **`Round.put`**, **`Round.skip`**: linking an element in behind `a`, and taking one out there.
* `Round.junk`: links of other elements do not matter.
-/

namespace Lib

variable {α : Type}

/-- Following `next` from `a` gives `l` and then `a`. -/
def Round (next : α → α) (a : α) (l : List α) : Prop :=
  (a :: (l ++ [a])).IsChain fun x y => next x = y

namespace Round

variable {next next' : α → α} {a b p x : α} {l l₁ l₂ m : List α}

theorem rotate (h : Round next a l) (hl : a :: l = l₁ ++ p :: l₂) : Round next p (l₂ ++ l₁) := by
  rcases l₁ with _ | ⟨c, l₁⟩
  · obtain ⟨rfl, rfl⟩ := List.cons.inj hl
    rwa [List.append_nil]
  · obtain ⟨rfl, htl⟩ := List.cons.inj hl
    have hl' : l = l₁ ++ p :: l₂ := htl
    rw [hl'] at h
    have hsplit : a :: ((l₁ ++ p :: l₂) ++ [a]) = (a :: l₁) ++ p :: (l₂ ++ [a]) := by simp
    rw [Round, hsplit, List.isChain_split] at h
    have hjoin : p :: ((l₂ ++ a :: l₁) ++ [p]) = (p :: l₂) ++ a :: (l₁ ++ [p]) := by simp
    rw [Round, hjoin, List.isChain_split]
    exact ⟨h.2, h.1⟩

theorem next_eq (h : Round next a l) : next a = (l ++ [a]).head (by simp) := by
  rcases l with _ | ⟨b, l⟩
  · exact (List.isChain_cons_cons.1 h).1
  · exact (List.isChain_cons_cons.1 h).1

theorem chain_congr {l : List α} (h : (l ++ [x]).IsChain fun x y => next x = y)
    (he : ∀ y ∈ l, next' y = next y) : (l ++ [x]).IsChain fun x y => next' x = y := by
  induction l with
  | nil => exact List.isChain_singleton x
  | cons c l ih =>
    have hc := he c List.mem_cons_self
    have htail := ih (List.IsChain.of_cons h) fun y hy => he y (List.mem_cons_of_mem c hy)
    rcases l with _ | ⟨d, l⟩
    · exact List.isChain_cons_cons.2 ⟨hc.trans (List.isChain_cons_cons.1 h).1, htail⟩
    · exact List.isChain_cons_cons.2 ⟨hc.trans (List.isChain_cons_cons.1 h).1, htail⟩

theorem congr (h : Round next a l) (he : ∀ y ∈ a :: l, next' y = next y) : Round next' a l :=
  chain_congr (l := a :: l) h he

variable [DecidableEq α]

theorem junk (h : Round next a l) (hb : b ∉ a :: l) (v : α) : Round (Function.update next b v) a l :=
  h.congr fun y hy => Function.update_of_ne (fun (he : y = b) => hb (he ▸ hy)) _ _

theorem relink (h : (x :: (m ++ [a])).IsChain fun x y => next x = y) (ha : a ∉ x :: m) :
    Round (Function.update next a x) a (x :: m) := by
  refine List.isChain_cons_cons.2 ⟨Function.update_self _ _ _, ?_⟩
  exact chain_congr (l := x :: m) h fun y hy =>
    Function.update_of_ne (fun (he : y = a) => ha (he ▸ hy)) _ _

theorem skip (h : Round next a (x :: m)) (ha : a ∉ x :: m) : Round (Function.update next a (next x)) a m := by
  have hx : next x = (m ++ [a]).head (by simp) := by
    have htail := (List.isChain_cons_cons.1 h).2
    rcases m with _ | ⟨y, m⟩
    · exact (List.isChain_cons_cons.1 htail).1
    · exact (List.isChain_cons_cons.1 htail).1
  have htail := List.IsChain.of_cons (List.IsChain.of_cons h)
  rcases m with _ | ⟨y, m⟩
  · exact List.isChain_cons_cons.2 ⟨(Function.update_self _ _ _).trans hx, List.isChain_singleton _⟩
  · rw [hx]
    exact relink htail fun hm => ha (List.mem_cons_of_mem x hm)

theorem put (h : Round next a m) (hb : b ∉ a :: m) (ha : a ∉ m) :
    Round (Function.update (Function.update next b (next a)) a b) a (b :: m) := by
  have hab : a ≠ b := fun he => hb (he ▸ List.mem_cons_self)
  refine relink ?_ fun hm => ?_
  · have hj := h.junk hb (next a)
    have hnext : Function.update next b (next a) b = next a := Function.update_self _ _ _
    have htail := List.IsChain.of_cons hj
    have hhead := h.next_eq
    rcases m with _ | ⟨y, m⟩
    · exact List.isChain_cons_cons.2 ⟨hnext.trans hhead, htail⟩
    · exact List.isChain_cons_cons.2 ⟨hnext.trans hhead, htail⟩
  · rcases List.mem_cons.1 hm with he | hm
    · exact hab he
    · exact ha hm

end Round

end Lib
