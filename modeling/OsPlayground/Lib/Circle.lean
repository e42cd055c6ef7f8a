import Mathlib.Data.List.Basic
import Mathlib.Data.List.Nodup
import Mathlib.Logic.Function.Basic

/-!
# Circular doubly linked lists

The nodes are a head, which is `none`, and elements `some a`; every node has a `next` and a `prev`.

* `Links.Between k a l c`: following `next` from the node `a` gives the elements `l` and then the
  node `c`, and `prev` leads back; `Between.append`, `Between.congr`, `Between.redirect`.
* `Links.Circle k l`: all nodes form one circle through the head.
* **`Circle.pushFront`**, **`Circle.toFront`**: linking a new element behind the head, and moving an
  element there.
* `scan`, `Circle.scan_next`, `Circle.scan_prev`: searching the circle both ways.
-/

namespace Lib

variable {α : Type}

/-- The two links of every element; `none` is the head. -/
structure Links (α : Type) where
  next : Option α → Option α
  prev : Option α → Option α

namespace Links

/-- The elements `l` lie between the nodes `a` and `c`. -/
def Between (k : Links α) : Option α → List α → Option α → Prop
  | a, [], c => k.next a = c ∧ k.prev c = a
  | a, b :: l, c => k.next a = some b ∧ k.prev (some b) = a ∧ k.Between (some b) l c

/-- The last node before the end. -/
def final : Option α → List α → Option α
  | a, [] => a
  | _, b :: l => final (some b) l

/-- All nodes form one circle. -/
structure Circle (k : Links α) (l : List α) : Prop where
  nodup : l.Nodup
  between : k.Between none l none

/-- The links the other way round. -/
def flip (k : Links α) : Links α := ⟨k.prev, k.next⟩

section Between

variable {k k' : Links α} {a c : Option α} {l l' : List α}

theorem Between.append {b : α} : ∀ {a : Option α} {l : List α},
    k.Between a (l ++ b :: l') c ↔ k.Between a l (some b) ∧ k.Between (some b) l' c
  | _, [] => by simp only [List.nil_append, Between, and_assoc]
  | _, d :: l => by simp only [List.cons_append, Between, Between.append (l := l), and_assoc]

theorem Between.prev_end : ∀ {a : Option α} {l : List α}, k.Between a l c → k.prev c = final a l
  | _, [], h => h.2
  | _, _ :: _, h => h.2.2.prev_end

theorem final_mem : ∀ (a : Option α) (l : List α), final a l = a ∨ ∃ b ∈ l, final a l = some b
  | _, [] => .inl rfl
  | _, b :: l => by
    rcases final_mem (some b) l with h | ⟨d, hd, h⟩
    · exact .inr ⟨b, List.mem_cons_self, h⟩
    · exact .inr ⟨d, List.mem_cons_of_mem _ hd, h⟩

theorem Between.congr : ∀ {a : Option α} {l : List α}, k.Between a l c →
    k'.next a = k.next a → (∀ b ∈ l, k'.next (some b) = k.next (some b)) →
    k'.prev c = k.prev c → (∀ b ∈ l, k'.prev (some b) = k.prev (some b)) → k'.Between a l c
  | _, [], h, hn, _, hp, _ => ⟨hn.trans h.1, hp.trans h.2⟩
  | _, b :: _, h, hn, hns, hp, hps =>
    ⟨hn.trans h.1, (hps b List.mem_cons_self).trans h.2.1,
      h.2.2.congr (hns b List.mem_cons_self) (fun d hd => hns d (List.mem_cons_of_mem _ hd)) hp
        fun d hd => hps d (List.mem_cons_of_mem _ hd)⟩

/-- **Redirection.** The last node gets a new successor `c'`. -/
theorem Between.redirect {c' : Option α} : ∀ {a : Option α} {l : List α}, k.Between a l c →
    l.Nodup → (∀ b ∈ l, a ≠ some b) → (∀ x, x ≠ final a l → k'.next x = k.next x) →
    k'.next (final a l) = c' → k'.prev c' = final a l →
    (∀ b ∈ l, k'.prev (some b) = k.prev (some b)) → k'.Between a l c'
  | _, [], _, _, _, _, hl, hp, _ => ⟨hl, hp⟩
  | a, b :: l, h, hnd, hne, hn, hl, hp, hps => by
    obtain ⟨hb, hnd⟩ := List.nodup_cons.mp hnd
    have ha : a ≠ final a (b :: l) := by
      rcases final_mem (some b) l with hf | ⟨d, hd, hf⟩
      · exact fun he => hne b List.mem_cons_self (he.trans hf)
      · exact fun he => hne d (List.mem_cons_of_mem _ hd) (he.trans hf)
    refine ⟨(hn a ha).trans h.1, (hps b List.mem_cons_self).trans h.2.1, ?_⟩
    refine h.2.2.redirect hnd (fun d hd he => ?_) hn hl hp fun d hd =>
      hps d (List.mem_cons_of_mem _ hd)
    obtain rfl := Option.some.inj he
    exact hb hd

theorem Between.flip : ∀ {a : Option α} {l : List α}, k.Between a l c →
    k.flip.Between c l.reverse a
  | _, [], h => ⟨h.2, h.1⟩
  | a, b :: l, h => by
    rw [List.reverse_cons, Between.append]
    exact ⟨h.2.2.flip, h.2.1, h.1⟩

end Between

variable [DecidableEq α]

/-- `b->next->prev = b->prev; b->prev->next = b->next`. -/
def unlink (b : α) (k : Links α) : Links α :=
  let k := { k with prev := Function.update k.prev (k.next (some b)) (k.prev (some b)) }
  { k with next := Function.update k.next (k.prev (some b)) (k.next (some b)) }

/-- `b->next = head.next; b->prev = &head; head.next->prev = b; head.next = b`. -/
def pushFront (b : α) (k : Links α) : Links α :=
  let k := { k with next := Function.update k.next (some b) (k.next none) }
  let k := { k with prev := Function.update k.prev (some b) none }
  let k := { k with prev := Function.update k.prev (k.next none) (some b) }
  { k with next := Function.update k.next none (some b) }

namespace Circle

variable {k : Links α} {l : List α} {b : α}

theorem pushFront (h : k.Circle l) (hb : b ∉ l) : (k.pushFront b).Circle (b :: l) := by
  refine ⟨List.nodup_cons.mpr ⟨hb, h.nodup⟩, ?_⟩
  cases l with
  | nil =>
    have hn : k.next none = none := h.between.1
    simp [Links.pushFront, Between, hn]
  | cons d l =>
    have hn : k.next none = some d := h.between.1
    have hbd : b ≠ d := fun he => hb (he ▸ List.mem_cons_self)
    refine ⟨by simp [Links.pushFront], by simp [Links.pushFront, hn, hbd], ?_⟩
    refine ⟨by simp [Links.pushFront, hn], by simp [Links.pushFront, hn], ?_⟩
    refine h.between.2.2.congr ?_ (fun x hx => ?_) ?_ fun x hx => ?_
    · simp [Links.pushFront, Ne.symm hbd]
    · have : x ≠ b := fun he => hb (he ▸ List.mem_cons_of_mem _ hx)
      simp [Links.pushFront, this]
    · simp [Links.pushFront, hn]
    · have hxb : x ≠ b := fun he => hb (he ▸ List.mem_cons_of_mem _ hx)
      have hxd : x ≠ d := fun he => (List.nodup_cons.mp h.nodup).1 (he ▸ hx)
      simp [Links.pushFront, hn, hxb, hxd]

/-- What is before `b` is linked to what is behind it. -/
theorem unlink {l₁ l₂ : List α} (h : k.Circle (l₁ ++ b :: l₂)) :
    (k.unlink b).Circle (l₁ ++ l₂) := by
  obtain ⟨h₁, h₂⟩ := Between.append.mp h.between
  have hnd := List.nodup_append'.mp h.nodup
  obtain ⟨hb₂, hnd₂⟩ := List.nodup_cons.mp hnd.2.1
  have hdis : ∀ x ∈ l₁, x ∉ l₂ := fun x hx hx₂ => hnd.2.2 hx (List.mem_cons_of_mem _ hx₂)
  have hb₁ : b ∉ l₁ := fun hb => hnd.2.2 hb List.mem_cons_self
  have hnodup : (l₁ ++ l₂).Nodup :=
    List.nodup_append'.mpr ⟨hnd.1, hnd₂, fun x hx hx₂ => hdis x hx hx₂⟩
  have hprev : k.prev (some b) = final none l₁ := h₁.prev_end
  have hfinal : ∀ x ∉ l₁, final none l₁ ≠ some x := by
    intro x hx he
    rcases final_mem none l₁ with hf | ⟨d, hd, hf⟩
    · rw [hf] at he
      cases he
    · rw [hf] at he
      exact hx (Option.some.inj he ▸ hd)
  refine ⟨hnodup, ?_⟩
  cases l₂ with
  | nil =>
    have hn : k.next (some b) = none := h₂.1
    rw [List.append_nil]
    refine h₁.redirect hnd.1 (fun _ _ he => by cases he) (fun x hx => ?_) ?_ ?_ fun x hx => ?_
    · simp [Links.unlink, hn, hprev, hx]
    · simp [Links.unlink, hn, hprev]
    · simp [Links.unlink, hn, hprev]
    · simp [Links.unlink, hn]
  | cons d l₂ =>
    have hn : k.next (some b) = some d := h₂.1
    have hbd : b ≠ d := fun he => hb₂ (he ▸ List.mem_cons_self)
    have hd₁ : d ∉ l₁ := fun hd => hdis d hd List.mem_cons_self
    have hp : (k.unlink b).prev = Function.update k.prev (some d) (final none l₁) := by
      simp [Links.unlink, hn, hprev]
    have hnx : (k.unlink b).next = Function.update k.next (final none l₁) (some d) := by
      simp [Links.unlink, hn, hprev, hbd]
    refine Between.append.mpr ⟨?_, ?_⟩
    · refine h₁.redirect hnd.1 (fun _ _ he => by cases he) (fun x hx => ?_) ?_ ?_ fun x hx => ?_
      · rw [hnx, Function.update_of_ne hx]
      · rw [hnx, Function.update_self]
      · rw [hp, Function.update_self]
      · rw [hp, Function.update_of_ne]
        rintro he
        exact hd₁ (Option.some.inj he ▸ hx)
    · refine h₂.2.2.congr ?_ (fun x hx => ?_) ?_ fun x hx => ?_
      · rw [hnx, Function.update_of_ne (hfinal d hd₁).symm]
      · have hx₁ : x ∉ l₁ := fun h => hdis x h (List.mem_cons_of_mem _ hx)
        rw [hnx, Function.update_of_ne (hfinal x hx₁).symm]
      · rw [hp, Function.update_of_ne (by simp)]
      · have hxd : x ≠ d := fun he => (List.nodup_cons.mp hnd₂).1 (he ▸ hx)
        rw [hp, Function.update_of_ne (by simpa using hxd)]

/-- **Moving to the front.** -/
theorem toFront (h : k.Circle l) (hb : b ∈ l) :
    ((k.unlink b).pushFront b).Circle (b :: l.erase b) := by
  obtain ⟨l₁, l₂, rfl⟩ := List.append_of_mem hb
  have hb₁ : b ∉ l₁ := fun h' =>
    (List.nodup_append'.mp h.nodup).2.2 h' List.mem_cons_self
  have hb₂ : b ∉ l₂ := (List.nodup_cons.mp (List.nodup_append'.mp h.nodup).2.1).1
  rw [List.erase_append_right _ hb₁, List.erase_cons_head]
  exact h.unlink.pushFront fun h' => (List.mem_append.mp h').elim hb₁ hb₂

end Circle

/-- The first element from the node `a` on, following `step`, that meets `P`. -/
def scan (step : Option α → Option α) (P : α → Bool) : ℕ → Option α → Option α
  | 0, _ => none
  | _ + 1, none => none
  | fuel + 1, some b => if P b then some b else scan step P fuel (step (some b))

omit [DecidableEq α] in
theorem Between.scan_next {k : Links α} {P : α → Bool} : ∀ {l : List α} {a : Option α} {fuel : ℕ},
    k.Between a l none → l.length ≤ fuel → scan k.next P fuel (k.next a) = l.find? P
  | [], a, fuel, h, _ => by
    rw [h.1]
    cases fuel with
    | zero => rfl
    | succ fuel => rfl
  | b :: l, a, fuel, h, hl => by
    obtain ⟨fuel, rfl⟩ := Nat.exists_eq_succ_of_ne_zero (Nat.ne_of_gt (Nat.lt_of_lt_of_le
      (Nat.succ_pos _) hl))
    rw [h.1, scan, List.find?_cons]
    cases P b with
    | true => rfl
    | false => exact h.2.2.scan_next (Nat.le_of_succ_le_succ hl)

namespace Circle

variable {k : Links α} {l : List α} {P : α → Bool} {fuel : ℕ}

omit [DecidableEq α] in
/-- **The search forwards** meets every element. -/
theorem scan_next (h : k.Circle l) (hl : l.length ≤ fuel) :
    scan k.next P fuel (k.next none) = l.find? P := h.between.scan_next hl

omit [DecidableEq α] in
/-- **The search backwards.** -/
theorem scan_prev (h : k.Circle l) (hl : l.length ≤ fuel) :
    scan k.prev P fuel (k.prev none) = l.reverse.find? P :=
  h.between.flip.scan_next (by rwa [List.length_reverse])

end Circle

end Links

end Lib
