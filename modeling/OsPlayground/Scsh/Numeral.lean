import Mathlib.Data.Nat.Log
import Mathlib.Tactic.IntervalCases
import Mathlib.Tactic.Ring
import OsPlayground.Scsh.Control

/-!
# Printing and reading numbers

`minus` prints with `printint` what `fromint` read. The reader knows no sign: it takes `'-'` for the
digit `-3`.

* `printint`, `minus`: as the code does it.
* `lost`: by how much a number that was printed and is read again is too small.
* **`minus_text_iff`**: when the printed difference of two printed numbers is the difference.
-/

namespace OsPlayground

namespace Scsh

/-- `digits[d]` -/
def digitChar (d : ℕ) : ℕ := if d < 10 then 48 + d else 55 + d

/-- The first loop of `printint`: the characters of `buf`, the last digit first. -/
def printLoop (base : ℕ) : ℕ → ℕ → List ℕ
  | 0, _ => []
  | fuel + 1, x =>
    digitChar (x % base) :: if x / base ≠ 0 then printLoop base fuel (x / base) else []

/-- `printint`: the characters that it writes. A number has at most 32 digits. -/
def printint (xx : BitVec 32) (base : ℕ) (sgn : Bool) : List ℕ :=
  let neg := sgn && xx.slt 0
  let x := if neg then -xx else xx
  let buf := printLoop base 32 x.toNat
  (if neg then buf ++ [45] else buf).reverse

/-- `printf("%d", a)` -/
def text (a : BitVec 32) : List ℕ := printint a 10 true

/-- What `runexp` prints for `minus` and two atoms. -/
def minus (t r : List ℕ) : List ℕ := text (BitVec.ofInt 32 (fromint t - fromint r))

/-! ## The reader -/

/-- One character, without the overflow. -/
def readDigit (s : ℤ) (c : ℕ) : ℤ := s * 10 + (c - 48)

/-- What `fromint` computes, without the overflow. -/
def readValue (v : List ℕ) : ℤ := v.foldl readDigit 0

theorem fromint_eq (v : List ℕ) : fromint v = Int.bmod (readValue v) INTS := by
  have hfold : ∀ (v : List ℕ) (s : ℤ),
      v.foldl (fun s (c : ℕ) => Int.bmod (s * 10 + (c - 48)) INTS) (Int.bmod s INTS) =
        Int.bmod (v.foldl readDigit s) INTS := by
    intro v
    induction v with
    | nil => exact fun _ => rfl
    | cons c v ih =>
      intro s
      have hstep : Int.bmod (Int.bmod s INTS * 10 + (c - 48)) INTS =
          Int.bmod (readDigit s c) INTS := by
        rw [readDigit, Int.add_bmod, Int.bmod_mul_bmod, ← Int.add_bmod]
      rw [List.foldl_cons, List.foldl_cons, hstep]
      exact ih _
  exact hfold v 0

theorem foldl_readDigit (v : List ℕ) (s : ℤ) :
    v.foldl readDigit s = s * 10 ^ v.length + readValue v := by
  unfold readValue
  induction v generalizing s with
  | nil => simp
  | cons c v ih =>
    rw [List.foldl_cons, List.foldl_cons, ih, ih (readDigit 0 c), List.length_cons, pow_succ,
      readDigit, readDigit]
    ring

theorem readValue_append (u v : List ℕ) :
    readValue (u ++ v) = readValue u * 10 ^ v.length + readValue v := by
  rw [readValue, List.foldl_append]
  exact foldl_readDigit v _

theorem readValue_singleton (c : ℕ) : readValue [c] = c - 48 := by simp [readValue, readDigit]

/-! ## The digits -/

theorem le_of_mem_printLoop {base fuel x c : ℕ} (h : c ∈ printLoop base fuel x) : 48 ≤ c := by
  induction fuel generalizing x with
  | zero => cases h
  | succ fuel ih =>
    rw [printLoop, List.mem_cons] at h
    rcases h with rfl | h
    · unfold digitChar; split <;> omega
    · split at h
      · exact ih h
      · cases h

theorem readValue_printLoop {fuel x : ℕ} (hx : x < 10 ^ fuel) :
    readValue (printLoop 10 fuel x).reverse = x := by
  induction fuel generalizing x with
  | zero =>
    obtain rfl : x = 0 := by simpa using hx
    rfl
  | succ fuel ih =>
    have hd : digitChar (x % 10) = 48 + x % 10 := if_pos (Nat.mod_lt _ (by decide))
    have hq : x / 10 < 10 ^ fuel := by
      rw [pow_succ] at hx
      exact Nat.div_lt_of_lt_mul (by omega)
    rw [printLoop, List.reverse_cons, readValue_append, readValue_singleton, hd]
    have hrest : readValue (if x / 10 ≠ 0 then printLoop 10 fuel (x / 10) else []).reverse =
        ((x / 10 : ℕ) : ℤ) := by
      split_ifs with h
      · exact ih hq
      · rw [not_not.1 h]; rfl
    rw [hrest, List.length_singleton]
    omega

theorem length_printLoop {fuel x : ℕ} (hf : 0 < fuel) (hx : x < 10 ^ fuel) :
    (printLoop 10 fuel x).length = Nat.log 10 x + 1 := by
  induction fuel generalizing x with
  | zero => cases hf
  | succ fuel ih =>
    rw [printLoop, List.length_cons]
    split_ifs with h
    · have hq : x / 10 < 10 ^ fuel := by
        rw [pow_succ] at hx
        exact Nat.div_lt_of_lt_mul (by omega)
      have hfuel : 0 < fuel := by
        rcases fuel with _ | fuel
        · simp at hq; omega
        · omega
      have hlog : 0 < Nat.log 10 x := Nat.log_pos (by decide) (by omega)
      rw [ih hfuel hq, Nat.log_div_base]
      omega
    · rw [Nat.log_of_lt (by omega)]
      rfl

/-! ## What is lost -/

/-- By how much `fromint` reads a printed number too small. -/
def lost (a : ℤ) : ℤ := if 0 ≤ a then 0 else 2 * a + 3 * 10 ^ (Nat.log 10 a.natAbs + 1)

theorem text_of_nonneg {a : BitVec 32} (h : 0 ≤ a.toInt) :
    text a = (printLoop 10 32 a.toInt.natAbs).reverse := by
  have hs : a.slt 0#32 = false := by simpa [BitVec.slt] using h
  have hn : a.toNat = a.toInt.natAbs := by
    rw [BitVec.toInt_eq_toNat_cond] at h ⊢
    split_ifs at h ⊢ <;> omega
  simp [text, printint, hs, hn]

theorem text_of_neg {a : BitVec 32} (h : a.toInt < 0) :
    text a = 45 :: (printLoop 10 32 a.toInt.natAbs).reverse := by
  have hs : a.slt 0#32 = true := by simpa [BitVec.slt] using h
  have hn : (-a).toNat = a.toInt.natAbs := by
    rw [BitVec.toInt_eq_toNat_cond] at h ⊢
    rw [BitVec.toNat_neg]
    split_ifs at h ⊢ <;> omega
  simp [text, printint, hs, hn]

theorem natAbs_le (a : BitVec 32) : a.toInt.natAbs ≤ 2147483648 := by
  have hlt : a.toInt < 2147483648 := BitVec.toInt_lt
  have hge : -2147483648 ≤ a.toInt := BitVec.le_toInt a
  omega

theorem natAbs_lt (a : BitVec 32) : a.toInt.natAbs < 10 ^ 32 :=
  (natAbs_le a).trans_lt (by norm_num)

theorem readValue_text (a : BitVec 32) : readValue (text a) = a.toInt - lost a.toInt := by
  unfold lost
  split_ifs with h
  · rw [text_of_nonneg h, readValue_printLoop (natAbs_lt a)]
    omega
  · have hneg : a.toInt < 0 := by omega
    have happ : text a = [45] ++ (printLoop 10 32 a.toInt.natAbs).reverse := text_of_neg hneg
    rw [happ, readValue_append, readValue_singleton, readValue_printLoop (natAbs_lt a),
      List.length_reverse, length_printLoop (by decide) (natAbs_lt a)]
    push_cast
    have habs : (a.toInt.natAbs : ℤ) = -a.toInt := by omega
    rw [Int.natCast_natAbs] at habs
    rw [habs]
    ring

theorem text_injective : Function.Injective text := by
  intro a b h
  have hdigits : ∀ x y : ℕ, 45 :: (printLoop 10 32 x).reverse ≠ (printLoop 10 32 y).reverse := by
    intro x y hxy
    have hmem : 45 ∈ (printLoop 10 32 y).reverse := by rw [← hxy]; exact List.mem_cons_self
    exact absurd (le_of_mem_printLoop (List.mem_reverse.1 hmem)) (by decide)
  apply BitVec.eq_of_toInt_eq
  rcases le_or_gt 0 a.toInt with ha | ha <;> rcases le_or_gt 0 b.toInt with hb | hb
  · rw [text_of_nonneg ha, text_of_nonneg hb] at h
    have hv := congrArg readValue h
    rw [readValue_printLoop (natAbs_lt a), readValue_printLoop (natAbs_lt b)] at hv
    omega
  · rw [text_of_nonneg ha, text_of_neg hb] at h
    exact absurd h.symm (hdigits _ _)
  · rw [text_of_neg ha, text_of_nonneg hb] at h
    exact absurd h (hdigits _ _)
  · rw [text_of_neg ha, text_of_neg hb, List.cons.injEq] at h
    have hv := congrArg readValue h.2
    rw [readValue_printLoop (natAbs_lt a), readValue_printLoop (natAbs_lt b)] at hv
    omega

theorem fromint_text (a : BitVec 32) :
    fromint (text a) = Int.bmod (a.toInt - lost a.toInt) INTS := by
  rw [fromint_eq, readValue_text]

theorem bmod_eq_iff (x : ℤ) {a : ℤ} (hge : -2147483648 ≤ a) (hlt : a < 2147483648) :
    Int.bmod x INTS = a ↔ (4294967296 : ℤ) ∣ x - a := by
  have hcast : ((INTS : ℕ) : ℤ) = 4294967296 := rfl
  rw [Int.bmod_def, hcast]
  split_ifs <;> omega

theorem fromint_text_iff (a : BitVec 32) :
    fromint (text a) = a.toInt ↔ 0 ≤ a.toInt ∨ a.toInt = -2115098112 := by
  have hlt : a.toInt < 2147483648 := BitVec.toInt_lt
  have hge : -2147483648 ≤ a.toInt := BitVec.le_toInt a
  rw [fromint_text, bmod_eq_iff _ hge hlt, lost]
  split_ifs with h
  · exact iff_of_true (by simp) (Or.inl h)
  · have hpow := Nat.pow_log_le_self 10 (x := a.toInt.natAbs) (by omega)
    have hnext := Nat.lt_pow_succ_log_self (b := 10) (by decide) a.toInt.natAbs
    -- at most ten digits
    have hlog : Nat.log 10 a.toInt.natAbs ≤ 9 := by
      apply Nat.lt_succ_iff.1
      exact Nat.log_lt_of_lt_pow (by omega) (by omega)
    generalize Nat.log 10 a.toInt.natAbs = k at hpow hnext hlog
    interval_cases k <;> omega

/-- **`minus`.** The difference of two printed numbers is printed if and only if both are lost by the
same amount modulo `2^32`. -/
theorem minus_text_iff (a b : BitVec 32) :
    (minus (text a) (text b) = text (a - b) ↔
        (4294967296 : ℤ) ∣ lost a.toInt - lost b.toInt) ∧
      (fromint (text a) = a.toInt ↔ 0 ≤ a.toInt ∨ a.toInt = -2115098112) := by
  refine ⟨?_, fromint_text_iff a⟩
  have hlt : (a - b).toInt < 2147483648 := BitVec.toInt_lt
  have hge : -2147483648 ≤ (a - b).toInt := BitVec.le_toInt (a - b)
  have hsub := (bmod_eq_iff (a.toInt - b.toInt) hge hlt).1 BitVec.toInt_sub.symm
  rw [minus, text_injective.eq_iff, ← BitVec.toInt_inj, BitVec.toInt_ofInt, fromint_text,
    fromint_text, Int.bmod_sub_bmod, Int.sub_bmod_bmod, bmod_eq_iff _ hge hlt]
  omega

theorem not_minus_text : ¬ ∀ a b : BitVec 32, minus (text a) (text b) = text (a - b) := by
  intro h
  exact absurd (h (BitVec.ofInt 32 (-5)) (BitVec.ofInt 32 3)) (by decide)

end Scsh

end OsPlayground
