import Mathlib.Computability.Language

/-!
# The pattern matcher of `grep.c`

A string is the list of its characters before the NUL.

* `matchhere`, `matchstar`, `matchRe`: as the code does it.
* `Pattern`, `Pattern.language`: what a pattern means.
* **`matchRe_iff`**: the matcher decides it.
-/

namespace OsPlayground

namespace Grep

/-! ## The code -/

/-- The loop of `matchstar`, with `matchhere` for the rest of the pattern. -/
def matchstar (here : List ℕ → Bool) (c : ℕ) : List ℕ → Bool
  | [] => here []
  | t :: text => here (t :: text) || (t = c || c = 46) && matchstar here c text

/-- The last test of `matchhere`: one character, with `matchhere` for the rest. -/
def matchone (here : List ℕ → Bool) (c : ℕ) : List ℕ → Bool
  | [] => false
  | t :: text => (c = 46 || c = t) && here text

/-- `matchhere`: search for `re` at the beginning of `text`. -/
def matchhere : List ℕ → List ℕ → Bool
  | [], _ => true
  | [c], text => if c = 36 then text.isEmpty else matchone (matchhere []) c text
  | c :: d :: re, text =>
    if d = 42 then matchstar (matchhere re) c text else matchone (matchhere (d :: re)) c text

/-- The loop of `match`; it looks at the empty string too. -/
def matchAny (re : List ℕ) : List ℕ → Bool
  | [] => matchhere re []
  | t :: text => matchhere re (t :: text) || matchAny re text

/-- `match`. -/
def matchRe (re text : List ℕ) : Bool :=
  if re.head? = some 94 then matchhere re.tail text else matchAny re text

/-! ## The language of a pattern -/

/-- One item of a pattern. -/
inductive Item
  | one (c : ℕ)
  | star (c : ℕ)
  deriving DecidableEq, Repr

/-- The strings of one character that `c` stands for; `'.'` stands for any. -/
def chars (c : ℕ) : Language ℕ := {w | ∃ t, w = [t] ∧ (c = 46 ∨ c = t)}

open scoped Computability in
/-- The strings of an item. -/
def Item.language : Item → Language ℕ
  | .one c => chars c
  | .star c => (chars c)∗

/-- A pattern: whether it starts with `'^'`, the items, and whether it ends with a `'$'` that is not
starred. -/
structure Pattern where
  start : Bool
  items : List Item
  finish : Bool
  deriving DecidableEq, Repr

/-- The items from left to right, and whether a `'$'` ends them. -/
def items : List ℕ → List Item × Bool
  | [] => ([], false)
  | [c] => if c = 36 then ([], true) else ([.one c], false)
  | c :: d :: re =>
    if d = 42 then ((items re).map (Item.star c :: ·) id)
    else ((items (d :: re)).map (Item.one c :: ·) id)

/-- How a pattern is read. -/
def pattern (re : List ℕ) : Pattern :=
  let start := re.head? = some 94
  let r := items (if start then re.tail else re)
  ⟨start, r.1, r.2⟩

/-- The language of the items. -/
def Pattern.language (p : Pattern) : Language ℕ := (p.items.map Item.language).prod

/-- A substring of the text is in the language: a prefix or a suffix where the pattern says so. -/
def Pattern.Matches (p : Pattern) (text : List ℕ) : Prop :=
  ∃ before w after, text = before ++ w ++ after ∧ w ∈ p.language ∧
    (p.start = true → before = []) ∧ (p.finish = true → after = [])

/-! ## The matcher decides it -/

/-- What `matchhere` should decide: a prefix is in the language of the items, the whole text if `'$'`
ends them. -/
def Here (r : List Item × Bool) (text : List ℕ) : Prop :=
  ∃ w after, text = w ++ after ∧ w ∈ (r.1.map Item.language).prod ∧ (r.2 = true → after = [])

section Steps

variable {here : List ℕ → Bool} {r : List Item × Bool} {c : ℕ} {text : List ℕ}

open scoped Computability in
theorem mem_star {w : List ℕ} : w ∈ (chars c)∗ ↔ ∀ t ∈ w, c = 46 ∨ c = t := by
  rw [Language.mem_kstar]
  constructor
  · rintro ⟨L, rfl, hL⟩ t ht
    obtain ⟨y, hy, hty⟩ := List.mem_flatten.1 ht
    obtain ⟨u, rfl, hu⟩ := hL y hy
    rwa [List.mem_singleton.1 hty]
  · intro h
    refine ⟨w.map fun t => [t], ?_, fun y hy => ?_⟩
    · rw [← List.flatMap_def, List.flatMap_singleton']
    · obtain ⟨t, ht, rfl⟩ := List.mem_map.1 hy
      exact ⟨t, rfl, h t ht⟩

/-- `matchstar` tries every number of characters. -/
theorem matchstar_iff : matchstar here c text = true ↔
    ∃ u v, text = u ++ v ∧ (∀ t ∈ u, c = 46 ∨ c = t) ∧ here v = true := by
  induction text with
  | nil =>
    constructor
    · exact fun h => ⟨[], [], rfl, by simp, h⟩
    · rintro ⟨u, v, huv, -, hv⟩
      obtain ⟨rfl, rfl⟩ := List.append_eq_nil_iff.1 huv.symm
      exact hv
  | cons t text ih =>
    rw [matchstar, Bool.or_eq_true, Bool.and_eq_true, ih]
    constructor
    · rintro (h | ⟨hc, u, v, rfl, hu, hv⟩)
      · exact ⟨[], _, rfl, by simp, h⟩
      · have ht : c = 46 ∨ c = t := by
          rw [Bool.or_eq_true, decide_eq_true_iff, decide_eq_true_iff] at hc
          exact hc.symm.imp id Eq.symm
        exact ⟨t :: u, v, rfl, List.forall_mem_cons.2 ⟨ht, hu⟩, hv⟩
    · rintro ⟨u, v, huv, hu, hv⟩
      cases u with
      | nil => exact Or.inl (by rwa [huv])
      | cons x u =>
        obtain ⟨rfl, rfl⟩ := List.cons.inj huv
        obtain ⟨hx, hu⟩ := List.forall_mem_cons.1 hu
        refine Or.inr ⟨?_, u, v, rfl, hu, hv⟩
        rw [Bool.or_eq_true, decide_eq_true_iff, decide_eq_true_iff]
        exact hx.symm.imp Eq.symm id

theorem here_star (h : ∀ v, here v = true ↔ Here r v) :
    matchstar here c text = true ↔ Here (Item.star c :: r.1, r.2) text := by
  rw [matchstar_iff]
  unfold Here
  rw [List.map_cons, List.prod_cons]
  constructor
  · rintro ⟨u, v, rfl, hu, hv⟩
    obtain ⟨w, after, rfl, hw, hafter⟩ := (h v).1 hv
    exact ⟨u ++ w, after, (List.append_assoc _ _ _).symm, Language.append_mem_mul (mem_star.2 hu) hw, hafter⟩
  · rintro ⟨w, after, rfl, hw, hafter⟩
    obtain ⟨u, hu, v, hv, rfl⟩ := Language.mem_mul.1 hw
    exact ⟨u, v ++ after, List.append_assoc _ _ _, mem_star.1 hu, (h _).2 ⟨v, after, rfl, hv, hafter⟩⟩

theorem here_one (h : ∀ v, here v = true ↔ Here r v) :
    matchone here c text = true ↔ Here (Item.one c :: r.1, r.2) text := by
  unfold Here
  rw [List.map_cons, List.prod_cons]
  constructor
  · intro hm
    cases text with
    | nil => exact absurd hm Bool.false_ne_true
    | cons t text =>
      rw [matchone, Bool.and_eq_true, Bool.or_eq_true, decide_eq_true_iff, decide_eq_true_iff] at hm
      obtain ⟨w, after, rfl, hw, hafter⟩ := (h text).1 hm.2
      have ht : [t] ∈ chars c := ⟨t, rfl, hm.1⟩
      exact ⟨t :: w, after, rfl, Language.append_mem_mul ht hw, hafter⟩
  · rintro ⟨w, after, rfl, hw, hafter⟩
    obtain ⟨u, ⟨t, rfl, ht⟩, v, hv, rfl⟩ := Language.mem_mul.1 hw
    have hv' : here (v ++ after) = true := (h _).2 ⟨v, after, rfl, hv, hafter⟩
    rw [List.singleton_append, List.cons_append, matchone, hv', Bool.and_true, Bool.or_eq_true,
      decide_eq_true_iff, decide_eq_true_iff]
    exact ht

end Steps

/-- **`matchhere`**, by the pattern. -/
theorem matchhere_iff : ∀ re text : List ℕ, matchhere re text = true ↔ Here (items re) text
  | [], text => by
    rw [matchhere, items]
    refine iff_of_true rfl ⟨[], text, rfl, ?_, fun h => absurd h Bool.false_ne_true⟩
    exact (Language.mem_one _).2 rfl
  | [c], text => by
    rw [matchhere, items]
    split_ifs with hc
    · rw [List.isEmpty_iff]
      constructor
      · rintro rfl
        exact ⟨[], [], rfl, (Language.mem_one _).2 rfl, fun _ => rfl⟩
      · rintro ⟨w, after, rfl, hw, hafter⟩
        rw [hafter rfl, (Language.mem_one _).1 hw]
        rfl
    · exact here_one (r := ([], false)) (matchhere_iff [])
  | c :: d :: re, text => by
    rw [matchhere, items]
    split_ifs with hd
    · exact here_star (matchhere_iff re)
    · exact here_one (matchhere_iff (d :: re))

theorem matchAny_iff (re text : List ℕ) : matchAny re text = true ↔
    ∃ before rest, text = before ++ rest ∧ matchhere re rest = true := by
  induction text with
  | nil =>
    constructor
    · exact fun h => ⟨[], [], rfl, h⟩
    · rintro ⟨before, rest, h, hr⟩
      obtain ⟨rfl, rfl⟩ := List.append_eq_nil_iff.1 h.symm
      exact hr
  | cons t text ih =>
    rw [matchAny, Bool.or_eq_true, ih]
    constructor
    · rintro (h | ⟨before, rest, rfl, hr⟩)
      · exact ⟨[], _, rfl, h⟩
      · exact ⟨t :: before, rest, rfl, hr⟩
    · rintro ⟨before, rest, h, hr⟩
      cases before with
      | nil => exact Or.inl (by rwa [h])
      | cons x before =>
        obtain ⟨rfl, rfl⟩ := List.cons.inj h
        exact Or.inr ⟨before, rest, rfl, hr⟩

/-- **The matcher decides the language of its pattern.** -/
theorem matchRe_iff (re text : List ℕ) : matchRe re text = true ↔ (pattern re).Matches text := by
  unfold matchRe pattern Pattern.Matches Pattern.language
  by_cases hs : re.head? = some 94
  · simp only [hs, if_true, decide_true]
    rw [matchhere_iff]
    constructor
    · rintro ⟨w, after, rfl, hw, hafter⟩
      exact ⟨[], w, after, rfl, hw, fun _ => rfl, hafter⟩
    · rintro ⟨before, w, after, rfl, hw, hbefore, hafter⟩
      obtain rfl := hbefore trivial
      exact ⟨w, after, rfl, hw, hafter⟩
  · simp only [hs, if_false, decide_false]
    rw [matchAny_iff]
    constructor
    · rintro ⟨before, rest, rfl, hr⟩
      obtain ⟨w, after, rfl, hw, hafter⟩ := (matchhere_iff _ _).1 hr
      exact ⟨before, w, after, (List.append_assoc _ _ _).symm, hw,
        fun h => absurd h Bool.false_ne_true, hafter⟩
    · rintro ⟨before, w, after, rfl, hw, -, hafter⟩
      exact ⟨before, w ++ after, List.append_assoc _ _ _, (matchhere_iff _ _).2 ⟨w, after, rfl, hw, hafter⟩⟩

end Grep

end OsPlayground
