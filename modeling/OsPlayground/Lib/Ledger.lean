import Mathlib.Data.List.Nodup
import Mathlib.Data.Nat.Notation
import Mathlib.Logic.Function.Basic
import Mathlib.Tactic.SplitIfs

/-!
# Issued and spent

Things that are issued to a holder once and spent at most once: allocations of a resource, each with
a number of its own, so that two uses of one address are told apart.

* `Ledger`, `issue`, `spend`, `clear`.
* **`Ledger.Ok`**: what is held is not spent, is held once, and nothing was spent twice; kept by
  `Ok.issue`, `Ok.spend`, `Ok.clear` and when holders are left out (`Ok.mono`).
-/

namespace Lib

variable {K : Type}

/-- Which token every key has now, the next new one, and those given back. -/
structure Ledger (K : Type) where
  token : K → Option ℕ
  next : ℕ
  spent : List ℕ

namespace Ledger

/-- A new number for `k`. -/
def issue [DecidableEq K] (k : K) (l : Ledger K) : Ledger K :=
  { l with token := Function.update l.token k (some l.next), next := l.next + 1 }

/-- What `k` refers to is spent; `k` still refers to it. -/
def spend (k : K) (l : Ledger K) : Ledger K := { l with spent := l.spent ++ (l.token k).toList }

/-- `k` refers to nothing. -/
def clear [DecidableEq K] (k : K) (l : Ledger K) : Ledger K := { l with token := Function.update l.token k none }

/-- The holders `held` have numbers of their own, not spent yet. -/
structure Ok (l : Ledger K) (held : K → Prop) : Prop where
  token : ∀ k, held k → ∃ n, l.token k = some n ∧ n < l.next ∧ n ∉ l.spent
  inj : ∀ k k' n, held k → held k' → l.token k = some n → l.token k' = some n → k = k'
  nodup : l.spent.Nodup
  spent : ∀ n ∈ l.spent, n < l.next

variable {l : Ledger K} {held r : K → Prop} {k : K}

theorem Ok.mono (h : l.Ok held) (hle : ∀ k, r k → held k) : l.Ok r :=
  ⟨fun k hk => h.token k (hle k hk), fun k k' n hk hk' => h.inj k k' n (hle k hk) (hle k' hk'),
    h.nodup, h.spent⟩

/-- **A number is issued.** -/
theorem Ok.issue [DecidableEq K] (h : l.Ok held) (hle : ∀ k', r k' → k' ≠ k → held k') :
    (l.issue k).Ok r := by
  have hlt : ∀ k' n, r k' → k' ≠ k → l.token k' = some n → n < l.next := by
    intro k' n hk' hne hn
    obtain ⟨m, hm, hlt, -⟩ := h.token k' (hle k' hk' hne)
    rw [hm] at hn
    exact Option.some.inj hn ▸ hlt
  refine ⟨fun k' hk' => ?_, fun k₁ k₂ n h₁ h₂ hn₁ hn₂ => ?_, h.nodup, fun n hn => ?_⟩
  · by_cases hne : k' = k
    · subst hne
      exact ⟨l.next, by simp [Ledger.issue], Nat.lt_succ_self _, fun hs =>
        Nat.lt_irrefl _ (h.spent _ hs)⟩
    · obtain ⟨n, hn, hlt, hs⟩ := h.token k' (hle k' hk' hne)
      exact ⟨n, by simpa [Ledger.issue, hne] using hn, Nat.lt_succ_of_lt hlt, hs⟩
  · simp only [Ledger.issue, Function.update_apply] at hn₁ hn₂
    split_ifs at hn₁ hn₂ with e₁ e₂ e₂
    · exact e₁.trans e₂.symm
    · have := hlt k₂ n h₂ e₂ hn₂
      have := Option.some.inj hn₁
      omega
    · have := hlt k₁ n h₁ e₁ hn₁
      have := Option.some.inj hn₂
      omega
    · exact h.inj k₁ k₂ n (hle _ h₁ e₁) (hle _ h₂ e₂) hn₁ hn₂
  · exact Nat.lt_succ_of_lt (h.spent n hn)

theorem Ok.issue_or [DecidableEq K] (h : l.Ok held) :
    (l.issue k).Ok fun k' => held k' ∨ k' = k :=
  h.issue fun _ hk' hne => hk'.resolve_right hne

/-- **What is spent was held, and is held no more.** -/
theorem Ok.spend (h : l.Ok held) (hk : held k) (hle : ∀ k', r k' → held k' ∧ k' ≠ k) :
    (l.spend k).Ok r := by
  obtain ⟨m, hm, hlt, hs⟩ := h.token k hk
  refine ⟨fun k' hk' => ?_, fun k₁ k₂ n h₁ h₂ => h.inj k₁ k₂ n (hle _ h₁).1 (hle _ h₂).1, ?_,
    fun n hn => ?_⟩
  · obtain ⟨hk', hne⟩ := hle k' hk'
    obtain ⟨n, hn, hlt', hs'⟩ := h.token k' hk'
    refine ⟨n, hn, hlt', fun hmem => ?_⟩
    simp only [Ledger.spend, hm, Option.toList_some, List.mem_append, List.mem_singleton] at hmem
    rcases hmem with hmem | rfl
    · exact hs' hmem
    · exact hne (h.inj k' k n hk' hk hn hm)
  · simp only [Ledger.spend, hm, Option.toList_some]
    exact List.nodup_append.mpr ⟨h.nodup, List.nodup_singleton m, fun a ha b hb => by
      rw [List.mem_singleton] at hb
      rintro rfl
      exact hs (hb ▸ ha)⟩
  · simp only [Ledger.spend, hm, Option.toList_some, List.mem_append, List.mem_singleton] at hn
    rcases hn with hn | rfl
    · exact h.spent n hn
    · exact hlt

theorem Ok.clear [DecidableEq K] (h : l.Ok held) (hk : ¬ held k) : (l.clear k).Ok held := by
  have hne : ∀ k', held k' → (l.clear k).token k' = l.token k' := fun k' hk' =>
    Function.update_of_ne (by rintro rfl; exact hk hk') _ _
  refine ⟨fun k' hk' => ?_, fun k₁ k₂ n h₁ h₂ => ?_, h.nodup, h.spent⟩
  · rw [hne k' hk']
    exact h.token k' hk'
  · rw [hne k₁ h₁, hne k₂ h₂]
    exact h.inj k₁ k₂ n h₁ h₂

end Ledger

end Lib
