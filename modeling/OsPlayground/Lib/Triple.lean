import Mathlib.Order.Basic

/-!
# Partial correctness of computations with a state and errors

`Triple P m Q`: if `m` starts in a state with `P` and returns, the state after it and the value
returned meet `Q`. A computation that ends in an error owes nothing.

* `Triple.bind`, `Triple.conseq`, `Triple.ite`: the rules of the sequence, of the consequence and of
  the conditional.
* `Triple.pure`, `Triple.read`, `Triple.assign`, `Triple.fail`: the rules of the primitive
  computations.
* `Commutes f m`: `m` neither looks at what `f` changes nor changes it; `Triple.swap`: then it may be
  thought of as run after `f`.
-/

namespace Lib

variable {S ε α β : Type}

/-- From `P`, if `m` returns then `Q` holds. -/
def Triple (P : S → Prop) (m : StateT S (Except ε) α) (Q : α → S → Prop) : Prop :=
  ∀ s a s', P s → m s = .ok (a, s') → Q a s'

namespace Triple

variable {P P' : S → Prop} {m : StateT S (Except ε) α} {Q Q' : α → S → Prop}

theorem pure {a : α} (h : ∀ s, P s → Q a s) : Triple P (Pure.pure a : StateT S (Except ε) α) Q := by
  intro s b s' hs hm
  obtain ⟨rfl, rfl⟩ := Prod.mk.inj (Except.ok.inj hm)
  exact h s hs

theorem bind {R : β → S → Prop} {f : α → StateT S (Except ε) β} (hm : Triple P m Q)
    (hf : ∀ a, Triple (Q a) (f a) R) : Triple P (m >>= f) R := by
  intro s b s' hs hb
  change (m s).bind (fun x => f x.1 x.2) = .ok (b, s') at hb
  cases hr : m s with
  | error e =>
    rw [hr] at hb
    cases hb
  | ok x =>
    rw [hr] at hb
    exact hf x.1 x.2 b s' (hm s x.1 x.2 hs hr) hb

theorem conseq (h : Triple P m Q) (hP : ∀ s, P' s → P s) (hQ : ∀ a s, Q a s → Q' a s) :
    Triple P' m Q' := fun s a s' hs hm => hQ a s' (h s a s' (hP s hs) hm)

theorem pre (h : Triple P m Q) (hP : ∀ s, P' s → P s) : Triple P' m Q :=
  h.conseq hP fun _ _ hq => hq

theorem post (h : Triple P m Q) (hQ : ∀ a s, Q a s → Q' a s) : Triple P m Q' :=
  h.conseq (fun _ hp => hp) hQ

theorem intro (h : ∀ s, P s → Triple (fun s' => s' = s) m Q) : Triple P m Q :=
  fun s a s' hs hm => h s hs s a s' rfl hm

theorem seq {R : β → S → Prop} {T : S → Prop} {k : StateT S (Except ε) β}
    (hm : Triple P m fun _ => T) (hk : Triple T k R) : Triple P (m >>= fun _ => k) R :=
  hm.bind fun _ => hk

theorem ite {c : Prop} [Decidable c] {k : StateT S (Except ε) α}
    (hm : c → Triple P m Q) (hk : ¬ c → Triple P k Q) : Triple P (if c then m else k) Q := by
  by_cases h : c
  · rw [if_pos h]
    exact hm h
  · rw [if_neg h]
    exact hk h

theorem fail {e : ε} : Triple P (throw e : StateT S (Except ε) α) Q := by
  intro s a s' _ hm
  cases hm

theorem read {k : S → StateT S (Except ε) β} {R : β → S → Prop}
    (hk : ∀ s, P s → Triple (fun s' => s' = s) (k s) R) : Triple P (get >>= k) R := by
  intro s b s' hs hb
  exact hk s hs s b s' rfl hb

theorem assign {f : S → S} {R : PUnit → S → Prop} (h : ∀ s, P s → R ⟨⟩ (f s)) :
    Triple P (modify f : StateT S (Except ε) PUnit) R := by
  intro s a s' hs hm
  obtain ⟨rfl, rfl⟩ := Prod.mk.inj (Except.ok.inj hm)
  exact h s hs

theorem look {k : S → StateT S (Except ε) β} {R : β → S → Prop}
    (hk : ∀ s, Triple P (k s) R) : Triple P (get >>= k) R :=
  Triple.read fun s hs => (hk s).pre fun _ hs' => hs' ▸ hs

end Triple

/-! ## Computations that do not look at a part of the state -/

/-- `m` neither looks at what `f` changes nor changes it. -/
def Commutes (f : S → S) (m : StateT S (Except ε) α) : Prop :=
  ∀ s, m (f s) = (m s).map fun x => (x.1, f x.2)

namespace Commutes

variable {f : S → S} {m : StateT S (Except ε) α}

theorem pure (a : α) : Commutes f (Pure.pure a : StateT S (Except ε) α) := fun _ => rfl

theorem fail (e : ε) : Commutes f (throw e : StateT S (Except ε) α) := fun _ => rfl

theorem bind {k : α → StateT S (Except ε) β} (hm : Commutes f m) (hk : ∀ a, Commutes f (k a)) :
    Commutes f (m >>= k) := by
  intro s
  change (m (f s)).bind (fun x => k x.1 x.2) = ((m s).bind fun x => k x.1 x.2).map _
  rw [hm s]
  cases m s with
  | error e => rfl
  | ok x => exact hk x.1 x.2

theorem read {k : S → StateT S (Except ε) β} (heq : ∀ s, k (f s) = k s)
    (hk : ∀ s, Commutes f (k s)) : Commutes f (get >>= k) := by
  intro s
  change k (f s) (f s) = _
  rw [heq]
  exact hk s s

theorem assign {g : S → S} (h : ∀ s, g (f s) = f (g s)) :
    Commutes f (modify g : StateT S (Except ε) PUnit) := by
  intro s
  change Except.ok (PUnit.unit, g (f s)) = .ok (PUnit.unit, f (g s))
  rw [h]

theorem ite {c : Prop} [Decidable c] {k : StateT S (Except ε) α} (hm : Commutes f m)
    (hk : Commutes f k) : Commutes f (if c then m else k) := by
  by_cases h : c
  · rwa [if_pos h]
  · rwa [if_neg h]

end Commutes

theorem Triple.swap {P T U : S → Prop} {f : S → S} {m : StateT S (Except ε) α}
    {k : StateT S (Except ε) β} {R : β → S → Prop} (hc : Commutes f m)
    (hf : ∀ s, P s → T (f s)) (hm : Triple T m fun _ => U) (hk : Triple U k R) :
    Triple P (m >>= fun _ => modify f >>= fun _ => k) R := by
  intro s b s' hs hb
  change (m s).bind (fun x => k (f x.2)) = .ok (b, s') at hb
  have hcs := hc s
  cases hr : m s with
  | error e =>
    rw [hr] at hb
    cases hb
  | ok x =>
    rw [hr] at hb hcs
    exact hk (f x.2) b s' (hm (f s) x.1 (f x.2) (hf s hs) hcs) hb

end Lib
