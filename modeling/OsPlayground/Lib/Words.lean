import Mathlib.Data.Nat.Bitwise
import Mathlib.Logic.Function.Basic

/-!
# Words and bits in bytes

A block of memory is a function from offsets to bytes.

* `getLE`, `putLE`: little-endian words of any width; `getLE_of_bytes`, `getLE_putLE`,
  `getLE_congr`.
* `getBit`, `setBit`, `clearBit`: the bits of a bitmap; `getBit_setBit`, `getBit_clearBit`.
-/

namespace Lib

abbrev Bytes := ℕ → ℕ

/-- The byte `j` of a word. -/
def byteOf (w j : ℕ) : ℕ := w / 256 ^ j % 256

/-- The little-endian word of `n` bytes at the offset `o`. -/
def getLE (blk : Bytes) : ℕ → ℕ → ℕ
  | _, 0 => 0
  | o, n + 1 => blk o + 256 * getLE blk (o + 1) n

/-- Write a word of `n` bytes at the offset `o`. -/
def putLE (blk : Bytes) (o n w : ℕ) : Bytes := fun i =>
  if o ≤ i ∧ i < o + n then byteOf w (i - o) else blk i

section Words

variable {blk blk' : Bytes} {o n w : ℕ}

theorem getLE_congr : ∀ {o n : ℕ}, (∀ i, o ≤ i → i < o + n → blk' i = blk i) →
    getLE blk' o n = getLE blk o n
  | _, 0, _ => rfl
  | o, n + 1, h => by
    rw [getLE, getLE, h o le_rfl (by omega),
      getLE_congr (o := o + 1) (n := n) fun i h₁ h₂ => h i (by omega) (by omega)]

theorem getLE_of_zero : ∀ {o n : ℕ}, (∀ i, o ≤ i → i < o + n → blk i = 0) → getLE blk o n = 0
  | _, 0, _ => rfl
  | o, n + 1, h => by
    rw [getLE, h o le_rfl (by omega),
      getLE_of_zero (o := o + 1) (n := n) fun i h₁ h₂ => h i (by omega) (by omega)]

theorem getLE_lt (h : ∀ i, blk i < 256) : ∀ {o n : ℕ}, getLE blk o n < 256 ^ n
  | _, 0 => Nat.one_pos
  | o, n + 1 => by
    have hbyte := h o
    have hrest := getLE_lt h (o := o + 1) (n := n)
    rw [getLE, Nat.pow_succ]
    omega

theorem byteOf_succ (w j : ℕ) : byteOf w (j + 1) = byteOf (w / 256) j := by
  rw [byteOf, byteOf, Nat.pow_succ', Nat.div_div_eq_div_mul]

theorem getLE_of_bytes : ∀ {o n w : ℕ}, w < 256 ^ n → (∀ j < n, blk (o + j) = byteOf w j) →
    getLE blk o n = w
  | _, 0, w, hw, _ => by
    have : w < 1 := hw
    rw [getLE]
    omega
  | o, n + 1, w, hw, h => by
    have h₀ : blk o = w % 256 := by
      have := h 0 (by omega)
      rwa [Nat.add_zero, byteOf, Nat.pow_zero, Nat.div_one] at this
    have hrest : getLE blk (o + 1) n = w / 256 := by
      refine getLE_of_bytes (Nat.div_lt_of_lt_mul (by rwa [Nat.pow_succ'] at hw)) fun j hj => ?_
      have := h (j + 1) (by omega)
      rw [byteOf_succ] at this
      rwa [Nat.add_assoc, Nat.add_comm 1 j]
    rw [getLE, h₀, hrest]
    exact Nat.mod_add_div w 256

theorem getLE_putLE (hw : w < 256 ^ n) : getLE (putLE blk o n w) o n = w := by
  refine getLE_of_bytes hw fun j hj => ?_
  rw [putLE, if_pos ⟨by omega, by omega⟩, Nat.add_sub_cancel_left]

theorem getLE_putLE_of_disjoint {o' n' : ℕ} (h : o' + n' ≤ o ∨ o + n ≤ o') :
    getLE (putLE blk o n w) o' n' = getLE blk o' n' :=
  getLE_congr fun i h₁ h₂ => by rw [putLE, if_neg (by omega)]

end Words

/-! ## Bits -/

/-- The bit `i` of a bitmap. -/
def getBit (blk : Bytes) (i : ℕ) : Bool := decide (blk (i / 8) &&& 1 <<< (i % 8) ≠ 0)

/-- Bit `i` set, counted from the least bit of byte 0. -/
def setBit (blk : Bytes) (i : ℕ) : Bytes :=
  Function.update blk (i / 8) (blk (i / 8) ||| 1 <<< (i % 8))

/-- Bit `i` cleared. -/
def clearBit (blk : Bytes) (i : ℕ) : Bytes :=
  Function.update blk (i / 8) (blk (i / 8) &&& (255 ^^^ 1 <<< (i % 8)))

section Bits

variable (blk : Bytes) (i j : ℕ)

theorem getBit_eq : getBit blk i = (blk (i / 8)).testBit (i % 8) := by
  rw [getBit, Nat.one_shiftLeft, Nat.and_two_pow]
  cases (blk (i / 8)).testBit (i % 8) with
  | false => simp
  | true => simp

theorem eq_of_div_mod {i j : ℕ} (h : j / 8 = i / 8) (h' : i % 8 = j % 8) : i = j := by omega

theorem getBit_setBit : getBit (setBit blk i) j = (decide (i = j) || getBit blk j) := by
  rw [getBit_eq, getBit_eq, setBit]
  by_cases h : j / 8 = i / 8
  · rw [h, Function.update_self, Nat.testBit_or, Nat.one_shiftLeft, Nat.testBit_two_pow,
      Bool.or_comm]
    congr 1
    refine decide_eq_decide.mpr ⟨eq_of_div_mod h, fun he => by rw [he]⟩
  · rw [Function.update_of_ne h, decide_eq_false (fun he => h (by rw [he])), Bool.false_or]

theorem getBit_clearBit : getBit (clearBit blk i) j = (decide (i ≠ j) && getBit blk j) := by
  rw [getBit_eq, getBit_eq, clearBit]
  by_cases h : j / 8 = i / 8
  · have h255 : (255 : ℕ) = 2 ^ 8 - 1 := rfl
    rw [h, Function.update_self, Nat.testBit_and, Nat.testBit_xor, Nat.one_shiftLeft,
      Nat.testBit_two_pow, h255, Nat.testBit_two_pow_sub_one,
      decide_eq_true (Nat.mod_lt j (by decide)), Bool.true_xor, Bool.and_comm, ← decide_not]
    congr 1
    exact decide_eq_decide.mpr (not_congr ⟨eq_of_div_mod h, fun he => by rw [he]⟩)
  · have hne : i ≠ j := fun he => h (by rw [he])
    rw [Function.update_of_ne h]
    simp [hne]

end Bits

end Lib
