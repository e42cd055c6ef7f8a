import Mathlib.Order.Basic

/-!
# Total correctness of computations with a state and errors

`Total P m E Q`: if `m` starts in a state with `P`, it returns, and the state after it and the value
returned meet `Q`, or it ends in an error that meets `E`.

* `Total.bind`, `Total.conseq`, `Total.ite`: the rules of the sequence, of the consequence and of
  the conditional.
* `Total.pure`, `Total.read`, `Total.assign`, `Total.fail`: the rules of the primitive computations.
-/

namespace Lib

variable {S ε α β : Type}

/-- From `P`, `m` ends with `Q`, or with an error that meets `E`. -/
def Total (P : S → Prop) (m : StateT S (Except ε) α) (E : ε → Prop) (Q : α → S → Prop) : Prop :=
  ∀ s, P s → (∃ e, m s = .error e ∧ E e) ∨ ∃ a s', m s = .ok (a, s') ∧ Q a s'

namespace Total

variable {P P' : S → Prop} {m : StateT S (Except ε) α} {E : ε → Prop} {Q Q' : α → S → Prop}

theorem pure {a : α} (h : ∀ s, P s → Q a s) : Total P (Pure.pure a : StateT S (Except ε) α) E Q :=
  fun s hs => .inr ⟨a, s, rfl, h s hs⟩

theorem bind {R : β → S → Prop} {f : α → StateT S (Except ε) β} (hm : Total P m E Q)
    (hf : ∀ a, Total (Q a) (f a) E R) : Total P (m >>= f) E R := by
  intro s hs
  change (∃ e, (m s).bind (fun x => f x.1 x.2) = .error e ∧ E e) ∨
    ∃ b s', (m s).bind (fun x => f x.1 x.2) = .ok (b, s') ∧ R b s'
  rcases hm s hs with ⟨e, he, hE⟩ | ⟨a, s₁, he, hQ⟩
  · rw [he]
    exact .inl ⟨e, rfl, hE⟩
  · rw [he]
    exact hf a s₁ hQ

theorem conseq (h : Total P m E Q) (hP : ∀ s, P' s → P s) (hQ : ∀ a s, Q a s → Q' a s) :
    Total P' m E Q' := by
  intro s hs
  rcases h s (hP s hs) with he | ⟨a, s', he, hq⟩
  · exact .inl he
  · exact .inr ⟨a, s', he, hQ a s' hq⟩

theorem pre (h : Total P m E Q) (hP : ∀ s, P' s → P s) : Total P' m E Q :=
  h.conseq hP fun _ _ hq => hq

theorem seq {R : β → S → Prop} {T : S → Prop} {k : StateT S (Except ε) β}
    (hm : Total P m E fun _ => T) (hk : Total T k E R) : Total P (m >>= fun _ => k) E R :=
  hm.bind fun _ => hk

theorem ite {c : Prop} [Decidable c] {k : StateT S (Except ε) α}
    (hm : c → Total P m E Q) (hk : ¬ c → Total P k E Q) : Total P (if c then m else k) E Q := by
  by_cases h : c
  · rw [if_pos h]
    exact hm h
  · rw [if_neg h]
    exact hk h

theorem fail {e : ε} (h : ∀ s, P s → E e) : Total P (throw e : StateT S (Except ε) α) E Q :=
  fun s hs => .inl ⟨e, rfl, h s hs⟩

theorem read {k : S → StateT S (Except ε) β} {R : β → S → Prop}
    (hk : ∀ s, P s → Total (fun s' => s' = s) (k s) E R) : Total P (get >>= k) E R :=
  fun s hs => hk s hs s rfl

theorem assign {f : S → S} {R : PUnit → S → Prop} (h : ∀ s, P s → R ⟨⟩ (f s)) :
    Total P (modify f : StateT S (Except ε) PUnit) E R :=
  fun s hs => .inr ⟨⟨⟩, f s, rfl, h s hs⟩

end Total

end Lib
