import OsPlayground.Scsh.Numeral

/-!
# `equal`

`equal` compares what `fromint` reads, not the strings.

* `Atom`: what the parser takes for an atom.
* `Atom.fromint`, `equal`: as the code does it, for any characters. A `char` has a sign.
* `weight`: the number that an atom stands for.
* **`equal_iff`**: when `equal` decides equality.
-/

namespace OsPlayground

namespace Scsh

/-- An atom of the parser, with the characters of its symbol. -/
structure Atom where
  chars : List (BitVec 8)
  ok : AtomOk (chars.map BitVec.toNat)

namespace Atom

/-- `fromint(t->symbol, t->esymbol - t->symbol)`. -/
def fromint (t : Atom) : BitVec 32 := t.chars.foldl (fun s v => s * 10 + (v.signExtend 32 - 48)) 0

end Atom

/-- What `runexp` prints for `equal` and two atoms. -/
def equal (t r : Atom) : List ℕ := if t.fromint - r.fromint = 0 then str ":true" else str ":false"

/-! ## Weights -/

/-- The sum of `v[i] - '0'` times ten to the number of characters after it. -/
def weight : List (BitVec 8) → ℤ
  | [] => 0
  | c :: v => (c.toInt - 48) * 10 ^ v.length + weight v

theorem foldl_weight (v : List (BitVec 8)) (s : ℤ) :
    v.foldl (fun s v => s * 10 + (v.signExtend 32 - 48)) (BitVec.ofInt 32 s) =
      BitVec.ofInt 32 (s * 10 ^ v.length + weight v) := by
  induction v generalizing s with
  | nil => simp [weight]
  | cons c v ih =>
    have hc : c.signExtend 32 = BitVec.ofInt 32 c.toInt := rfl
    have hstep : BitVec.ofInt 32 s * 10 + (c.signExtend 32 - 48) =
        BitVec.ofInt 32 (s * 10 + (c.toInt - 48)) := by
      rw [hc, Int.sub_eq_add_neg, BitVec.ofInt_add, BitVec.ofInt_add, BitVec.ofInt_mul,
        BitVec.sub_eq_add_neg]
      rfl
    rw [List.foldl_cons, hstep, ih, weight, List.length_cons, pow_succ]
    congr 1
    ring

theorem Atom.fromint_eq (t : Atom) : t.fromint = BitVec.ofInt 32 (weight t.chars) := by
  have h := foldl_weight t.chars 0
  rwa [zero_mul, zero_add] at h

theorem Atom.fromint_eq_iff (s t : Atom) :
    s.fromint - t.fromint = 0 ↔ (4294967296 : ℤ) ∣ weight s.chars - weight t.chars := by
  have hsub : ∀ x y : BitVec 32, x - y = 0 ↔ x = y := by
    intro x y
    bv_omega
  rw [s.fromint_eq, t.fromint_eq, hsub, ← BitVec.toInt_inj, BitVec.toInt_ofInt,
    BitVec.toInt_ofInt, Int.bmod_eq_bmod_iff_bmod_sub_eq_zero]
  exact ⟨Int.dvd_of_bmod_eq_zero, Int.bmod_eq_zero_of_dvd⟩

theorem equal_eq_true_iff (s t : Atom) :
    equal s t = str ":true" ↔ (4294967296 : ℤ) ∣ weight s.chars - weight t.chars := by
  rw [← Atom.fromint_eq_iff, equal]
  constructor
  · intro h
    by_contra hne
    rw [if_neg hne] at h
    exact absurd h (by decide)
  · exact fun h => if_pos h

/-- **`equal`.** It decides whether two atoms are the same string if and only if they are, or their
weights differ modulo `2^32`. -/
theorem equal_iff (s t : Atom) :
    (equal s t = str ":true" ↔ s.chars = t.chars) ↔
      s.chars = t.chars ∨ ¬ (4294967296 : ℤ) ∣ weight s.chars - weight t.chars := by
  rw [equal_eq_true_iff]
  constructor
  · intro h
    by_cases hd : (4294967296 : ℤ) ∣ weight s.chars - weight t.chars
    · exact Or.inl (h.1 hd)
    · exact Or.inr hd
  · rintro (h | h)
    · rw [h, sub_self]
      exact iff_of_true (dvd_zero _) rfl
    · exact iff_of_false h fun he => h (by rw [he, sub_self]; exact dvd_zero _)

theorem weight_zero_cons (v : List (BitVec 8)) : weight (48 :: v) = weight v := by
  rw [weight]
  have h48 : (48 : BitVec 8).toInt - 48 = 0 := rfl
  rw [h48, zero_mul, zero_add]

theorem equal_zero_cons {s t : Atom} (h : s.chars = 48 :: t.chars) : equal s t = str ":true" := by
  rw [equal_eq_true_iff, h, weight_zero_cons, sub_self]
  exact dvd_zero _

/-- `1` and `01` -/
theorem not_equal : ¬ ∀ s t : Atom, equal s t = str ":true" ↔ s.chars = t.chars := by
  intro h
  have hok : ∀ v : List (BitVec 8), v ≠ [] → (∀ c ∈ v, c = 48 ∨ c = 49) →
      AtomOk (v.map BitVec.toNat) := by
    intro v hne hv
    refine ⟨by simpa using hne, fun c hc => ?_, fun hq => ?_⟩
    · obtain ⟨b, hb, rfl⟩ := List.mem_map.1 hc
      rcases hv b hb with rfl | rfl <;> unfold Break <;> decide
    · cases v with
      | nil => exact hne rfl
      | cons b v =>
        rcases hv b List.mem_cons_self with rfl | rfl <;> simp at hq
  have heq : ([48, 49] : List (BitVec 8)) = [49] :=
    (h ⟨[48, 49], hok _ (by decide) (by decide)⟩ ⟨[49], hok _ (by decide) (by decide)⟩).1
      (equal_zero_cons rfl)
  exact absurd heq (by decide)

end Scsh

end OsPlayground
