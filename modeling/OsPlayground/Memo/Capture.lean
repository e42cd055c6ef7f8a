import Mathlib.Data.List.GetD
import Mathlib.Data.List.Range
import Mathlib.Order.Basic
import Mathlib.Tactic.SplitIfs
import OsPlayground.Lib.Run

/-!
# The memo buffer

`memowrite` of `pipe.c`, `sys_memo` and `sys_getmemo` of `sysfile.c`: the bytes of `struct memo` in
the shared page 2, written by one process at a time.

* `strncpy`: the stores that it makes, in order.
* `memowrite`, `sysMemo`, `sysGetmemo`: with the offsets from `memo[0]` that were stored to.
* `captured`: after NUL-free writes the buffer holds what was written.
* **`capture_iff`**: what was written can be read back, and no store leaves the buffer, if and only
  if fewer than `MEMOSIZE` bytes were written in all.
-/

namespace OsPlayground

open Lib

abbrev MEMOSIZE : ℕ := 512

/-! ## `strncpy` -/

/-- The second loop of `strncpy`: `n` zeros from the offset `i` on. -/
def strncpyPad : ℕ → ℕ → List (ℕ × ℕ)
  | _, 0 => []
  | i, n + 1 => (i, 0) :: strncpyPad (i + 1) n

/-- The first loop of `strncpy`, at the offset `i` with `n` bytes to go. -/
def strncpyFrom (t : ℕ → ℕ) : ℕ → ℕ → List (ℕ × ℕ)
  | _, 0 => []
  | i, n + 1 => (i, t i) :: if t i ≠ 0 then strncpyFrom t (i + 1) n else strncpyPad (i + 1) n

/-- The stores of `strncpy(s, t, n)`, as offsets from `s` with bytes. -/
def strncpy (t : ℕ → ℕ) (n : ℕ) : List (ℕ × ℕ) := strncpyFrom t 0 n

theorem strncpyPad_offsets (i n : ℕ) : (strncpyPad i n).map Prod.fst = List.range' i n := by
  induction n generalizing i with
  | zero => rfl
  | succ n ih => rw [strncpyPad, List.map_cons, ih, List.range'_succ]

theorem strncpyFrom_offsets (t : ℕ → ℕ) (i n : ℕ) :
    (strncpyFrom t i n).map Prod.fst = List.range' i n := by
  induction n generalizing i with
  | zero => rfl
  | succ n ih =>
    rw [strncpyFrom, List.map_cons, List.range'_succ]
    split_ifs
    · rw [ih]
    · rw [strncpyPad_offsets]

/-- **`strncpy` stores to `n` bytes whatever it copies.** -/
theorem strncpy_offsets (t : ℕ → ℕ) (n : ℕ) : (strncpy t n).map Prod.fst = List.range n := by
  rw [strncpy, strncpyFrom_offsets, List.range_eq_range']

theorem strncpyFrom_eq {t : ℕ → ℕ} {i n : ℕ} (h : ∀ j, i ≤ j → j < i + n → t j ≠ 0) :
    strncpyFrom t i n = (List.range' i n).map fun j => (j, t j) := by
  induction n generalizing i with
  | zero => rfl
  | succ n ih =>
    have hi : t i ≠ 0 := h i le_rfl (by omega)
    rw [strncpyFrom, if_pos hi, List.range'_succ, List.map_cons,
      ih fun j h₁ h₂ => h j (by omega) (by omega)]

theorem strncpy_eq {t : ℕ → ℕ} {n : ℕ} (h : ∀ j < n, t j ≠ 0) :
    strncpy t n = (List.range n).map fun j => (j, t j) := by
  rw [strncpy, strncpyFrom_eq fun j _ hj => h j (by omega), List.range_eq_range']

/-! ## The buffer -/

/-- `struct memo` without its lock. The pages above page 2 are taken to be mapped; where they are
not, a store to them is a fault. -/
structure Memo where
  lmemo : ℕ
  /-- The byte at `memo + i`. -/
  byte : ℕ → ℕ
  /-- History variable: the offsets that `memowrite` stored to. -/
  stored : List ℕ

namespace Memo

/-- `*i = b`, and `i` is added to the addresses written. -/
def store (i b : ℕ) (m : Memo) : Memo :=
  { m with byte := Function.update m.byte i b, stored := i :: m.stored }

/-- The stores `l`, as offsets from `memo + lmemo`. -/
def copy (l : List (ℕ × ℕ)) (m : Memo) : Memo :=
  l.foldl (fun m s => m.store (m.lmemo + s.1) s.2) m

/-- `lmemo` is an index of the array, and so is every offset stored to. -/
structure InBounds (m : Memo) : Prop where
  lmemo : m.lmemo ≤ MEMOSIZE - 1
  stored : ∀ i ∈ m.stored, i < MEMOSIZE

end Memo

/-- `memowrite`. -/
def memowrite (addr : ℕ → ℕ) (n : ℕ) (m : Memo) : Memo :=
  let m := m.copy (strncpy addr n)
  let m := { m with lmemo := m.lmemo + n }
  m.store m.lmemo 0

/-- `sys_memo`, on a page with any contents. -/
def sysMemo (byte : ℕ → ℕ) : Memo := ⟨0, byte, []⟩

/-- `sys_getmemo` into the user's bytes at `path`, with its return value. -/
def sysGetmemo (m : Memo) (path : ℕ → ℕ) : (ℕ → ℕ) × ℕ :=
  let path := (strncpy m.byte m.lmemo).foldl (fun p s => Function.update p s.1 s.2) path
  (Function.update path m.lmemo 0, m.lmemo)

/-- `filewrite` of the bytes `w` to an `FD_MEMO` descriptor. It always succeeds. -/
def memoStep (w : List ℕ) (m : Memo) : Option Memo := some (memowrite (fun i => w.getD i 0) w.length m)

/-! ## What a write does -/

section Write

variable {m : Memo} {t : ℕ → ℕ} {n : ℕ} {w : List ℕ}

@[simp] theorem store_byte (i b : ℕ) (m : Memo) :
    (m.store i b).byte = Function.update m.byte i b := rfl

theorem copy_append (k l : List (ℕ × ℕ)) (m : Memo) : m.copy (k ++ l) = (m.copy k).copy l :=
  List.foldl_append

@[simp] theorem copy_lmemo (l : List (ℕ × ℕ)) (m : Memo) : (m.copy l).lmemo = m.lmemo := by
  induction l generalizing m with
  | nil => rfl
  | cons s l ih => exact ih _

theorem mem_copy_stored (l : List (ℕ × ℕ)) (m : Memo) (x : ℕ) :
    x ∈ (m.copy l).stored ↔ (∃ i ∈ l.map Prod.fst, x = m.lmemo + i) ∨ x ∈ m.stored := by
  induction l generalizing m with
  | nil => simp [Memo.copy]
  | cons s l ih =>
    have hcons : m.copy (s :: l) = (m.store (m.lmemo + s.1) s.2).copy l := rfl
    rw [hcons, ih]
    simp only [Memo.store, List.mem_cons, List.map_cons, exists_eq_or_imp]
    rw [or_left_comm, or_assoc]

theorem copy_byte (m : Memo) (t : ℕ → ℕ) (n x : ℕ) :
    (m.copy ((List.range n).map fun j => (j, t j))).byte x =
      if m.lmemo ≤ x ∧ x < m.lmemo + n then t (x - m.lmemo) else m.byte x := by
  induction n with
  | zero =>
    rw [if_neg (by omega)]
    rfl
  | succ n ih =>
    have hsnoc : m.copy ((List.range (n + 1)).map fun j => (j, t j)) =
        (m.copy ((List.range n).map fun j => (j, t j))).store (m.lmemo + n) (t n) := by
      rw [List.range_succ, List.map_append, copy_append, ← copy_lmemo ((List.range n).map _) m]
      rfl
    rw [hsnoc, store_byte]
    by_cases hx : x = m.lmemo + n
    · subst hx
      rw [Function.update_self, if_pos (by omega), Nat.add_sub_cancel_left]
    · rw [Function.update_of_ne hx, ih]
      by_cases hlt : m.lmemo ≤ x ∧ x < m.lmemo + n
      · rw [if_pos hlt, if_pos (by omega)]
      · rw [if_neg hlt, if_neg (by omega)]

theorem memowrite_lmemo (m : Memo) (t : ℕ → ℕ) (n : ℕ) :
    (memowrite t n m).lmemo = m.lmemo + n := by
  simp [memowrite, Memo.store]

theorem memowrite_stored (m : Memo) (t : ℕ → ℕ) (n x : ℕ) :
    x ∈ (memowrite t n m).stored ↔ (m.lmemo ≤ x ∧ x ≤ m.lmemo + n) ∨ x ∈ m.stored := by
  have hmem : x ∈ (memowrite t n m).stored ↔
      x = m.lmemo + n ∨ (∃ i ∈ List.range n, x = m.lmemo + i) ∨ x ∈ m.stored := by
    rw [memowrite, Memo.store, List.mem_cons, mem_copy_stored, strncpy_offsets, copy_lmemo]
  have hrange : (∃ i ∈ List.range n, x = m.lmemo + i) ↔ m.lmemo ≤ x ∧ x < m.lmemo + n := by
    constructor
    · rintro ⟨i, hi, rfl⟩
      have := List.mem_range.mp hi
      omega
    · rintro ⟨h₁, h₂⟩
      exact ⟨x - m.lmemo, List.mem_range.mpr (by omega), by omega⟩
  rw [hmem, hrange, ← or_assoc]
  refine or_congr_left ?_
  omega

theorem memowrite_byte (h : ∀ j < n, t j ≠ 0) (x : ℕ) (hx : x < m.lmemo + n) :
    (memowrite t n m).byte x = if m.lmemo ≤ x then t (x - m.lmemo) else m.byte x := by
  have hne : x ≠ m.lmemo + n := by omega
  have hupd : (memowrite t n m).byte x = (m.copy (strncpy t n)).byte x := by
    simp [memowrite, Memo.store, Function.update_of_ne hne]
  rw [hupd, strncpy_eq h, copy_byte]
  by_cases hle : m.lmemo ≤ x
  · rw [if_pos ⟨hle, hx⟩, if_pos hle]
  · rw [if_neg (by omega), if_neg hle]

/-- **A write keeps the bounds exactly if it ends below `MEMOSIZE`.** -/
theorem inBounds_memowrite (h : m.InBounds) :
    (memowrite t n m).InBounds ↔ m.lmemo + n < MEMOSIZE := by
  constructor
  · intro hb
    exact hb.stored _ ((memowrite_stored m t n _).mpr (.inl ⟨by omega, le_rfl⟩))
  · intro hlt
    refine ⟨?_, fun x hx => ?_⟩
    · rw [memowrite_lmemo]
      omega
    · rcases (memowrite_stored m t n x).mp hx with hx | hx
      · omega
      · exact h.stored x hx

end Write

/-! ## Sequences of writes -/

/-- The buffer holds the bytes `s`. -/
structure Memo.Captured (m : Memo) (s : List ℕ) : Prop where
  lmemo : m.lmemo = s.length
  byte : ∀ x < s.length, m.byte x = s.getD x 0

section Writes

variable {m m' : Memo} {s : List ℕ} {w : List ℕ} {ws : List (List ℕ)}

theorem getD_ne_zero (h : 0 ∉ w) {j : ℕ} (hj : j < w.length) : w.getD j 0 ≠ 0 := by
  rw [List.getD_eq_getElem _ _ hj]
  intro h0
  exact h (h0 ▸ List.getElem_mem hj)

theorem captured_step (hm : m.Captured s) (hw : 0 ∉ w) (h : memoStep w m = some m') :
    m'.Captured (s ++ w) := by
  obtain rfl := Option.some.inj h
  refine ⟨?_, fun x hx => ?_⟩
  · rw [memowrite_lmemo, hm.lmemo, List.length_append]
  · rw [List.length_append] at hx
    rw [memowrite_byte (fun j hj => getD_ne_zero hw hj) x (by rw [hm.lmemo]; exact hx), hm.lmemo]
    by_cases hlt : s.length ≤ x
    · rw [if_pos hlt, List.getD_append_right _ _ _ _ hlt]
    · rw [if_neg hlt, List.getD_append _ _ _ _ (Nat.lt_of_not_le hlt),
        hm.byte x (Nat.lt_of_not_le hlt)]

/-- **Lossless.** After NUL-free writes the buffer holds their concatenation. -/
theorem captured (hm : m.Captured s) (hw : ∀ w ∈ ws, 0 ∉ w) (h : run memoStep ws m = some m') :
    m'.Captured (s ++ ws.flatten) := by
  induction ws generalizing m s with
  | nil =>
    obtain rfl : m = m' := by simpa [run] using h
    simpa using hm
  | cons w ws ih =>
    obtain ⟨m₁, h₁, h₂⟩ := run_cons.mp h
    have := ih (captured_step hm (hw w (by simp)) h₁) (fun w' hw' => hw w' (by simp [hw'])) h₂
    rwa [List.flatten_cons, ← List.append_assoc]

/-- What `sys_getmemo` returns and stores. -/
theorem sysGetmemo_captured (hm : m.Captured s) (hs : 0 ∉ s) (path : ℕ → ℕ) :
    sysGetmemo m path = (fun i => (s ++ [0]).getD i (path i), s.length) := by
  have hfold : ∀ n, ((List.range n).map fun j => (j, m.byte j)).foldl
      (fun p s => Function.update p s.1 s.2) path =
        fun i => if i < n then m.byte i else path i := by
    intro n
    induction n with
    | zero => rfl
    | succ n ih =>
      rw [List.range_succ, List.map_append, List.foldl_append, ih]
      funext i
      simp only [List.map_cons, List.map_nil, List.foldl_cons, List.foldl_nil]
      by_cases hi : i = n
      · rw [hi, Function.update_self, if_pos (by omega)]
      · have hiff : i < n + 1 ↔ i < n := by omega
        rw [Function.update_of_ne hi]
        simp only [hiff]
  have hbyte : ∀ j < s.length, m.byte j ≠ 0 := by
    intro j hj
    rw [hm.byte j hj]
    exact getD_ne_zero hs hj
  refine Prod.ext ?_ hm.lmemo
  funext i
  simp only [sysGetmemo, hm.lmemo, strncpy_eq hbyte, hfold]
  rcases lt_trichotomy i s.length with hi | rfl | hi
  · rw [Function.update_of_ne (by omega), if_pos hi, hm.byte i hi, List.getD_append _ _ _ _ hi,
      List.getD_eq_getElem _ _ hi, List.getD_eq_getElem _ _ hi]
  · rw [Function.update_self, List.getD_append_right _ _ _ _ le_rfl, Nat.sub_self,
      List.getD_cons_zero]
  · rw [Function.update_of_ne (by omega), if_neg (by omega), List.getD_append_right _ _ _ _ hi.le,
      List.getD_eq_default]
    rw [List.length_singleton]
    omega

theorem throughout_inBounds (hm : m.InBounds) :
    Throughout memoStep Memo.InBounds ws m ↔ m.lmemo + ws.flatten.length < MEMOSIZE := by
  induction ws generalizing m with
  | nil =>
    have hlt : m.lmemo < MEMOSIZE := Nat.lt_of_le_pred (by decide) hm.lmemo
    exact ⟨fun _ => hlt, fun _ => hm⟩
  | cons w ws ih =>
    have hstep := inBounds_memowrite (t := fun i => w.getD i 0) (n := w.length) hm
    have hl := memowrite_lmemo m (fun i => w.getD i 0) w.length
    rw [List.flatten_cons, List.length_append, ← Nat.add_assoc, ← hl]
    constructor
    · intro h
      have hnext := h.2 _ rfl
      exact (ih hnext.start).mp hnext
    · intro h
      have hb : (memowrite (fun i => w.getD i 0) w.length m).InBounds := hstep.mpr (by omega)
      refine ⟨hm, fun m' hm' => ?_⟩
      obtain rfl := Option.some.inj hm'
      exact (ih hb).mpr h

end Writes

theorem sysMemo_inBounds (byte : ℕ → ℕ) : (sysMemo byte).InBounds :=
  ⟨Nat.zero_le _, fun _ h => absurd h (List.not_mem_nil)⟩

/-- **Memo capture.** After `sys_memo` and any NUL-free writes: `sys_getmemo` returns their
concatenation if it is shorter than `MEMOSIZE`, and every store of every write stays in the array
with `lmemo` below its last element, if and only if the writes together are shorter than
`MEMOSIZE`. -/
theorem capture_iff (byte path : ℕ → ℕ) (ws : List (List ℕ)) (hws : ∀ w ∈ ws, 0 ∉ w) :
    ((ws.flatten.length < MEMOSIZE → ∀ m, run memoStep ws (sysMemo byte) = some m →
        sysGetmemo m path = (fun i => (ws.flatten ++ [0]).getD i (path i), ws.flatten.length)) ∧
      Throughout memoStep Memo.InBounds ws (sysMemo byte)) ↔ ws.flatten.length < MEMOSIZE := by
  have hbounds : Throughout memoStep Memo.InBounds ws (sysMemo byte) ↔
      ws.flatten.length < MEMOSIZE := by
    rw [throughout_inBounds (sysMemo_inBounds byte), show (sysMemo byte).lmemo = 0 from rfl,
      Nat.zero_add]
  rw [hbounds, and_iff_right_iff_imp]
  intro _ _ m hm
  have hcap : m.Captured ([] ++ ws.flatten) :=
    captured ⟨rfl, fun _ h => absurd h (Nat.not_lt_zero _)⟩ hws hm
  rw [List.nil_append] at hcap
  refine sysGetmemo_captured hcap (fun h => ?_) path
  obtain ⟨w, hw, h0⟩ := List.mem_flatten.mp h
  exact hws w hw h0

/-- Two writes over an array of sevens. -/
theorem capture_iff_two : Throughout memoStep Memo.InBounds [[104, 105], [33]] (sysMemo fun _ => 7) ∧
    ∃ m, run memoStep [[104, 105], [33]] (sysMemo fun _ => 7) = some m ∧
      sysGetmemo m (fun _ => 7) = (fun i => [104, 105, 33, 0].getD i 7, 3) := by
  have h := (capture_iff (fun _ => 7) (fun _ => 7) [[104, 105], [33]] (by decide)).mpr (by decide)
  exact ⟨h.2, _, rfl, h.1 (by decide) _ rfl⟩

/-- A single write of `MEMOSIZE` bytes puts its terminator behind the array. -/
theorem capture_overruns : ¬ ∀ (byte path : ℕ → ℕ) (ws : List (List ℕ)), (∀ w ∈ ws, 0 ∉ w) →
    (ws.flatten.length < MEMOSIZE → ∀ m, run memoStep ws (sysMemo byte) = some m →
        sysGetmemo m path = (fun i => (ws.flatten ++ [0]).getD i (path i), ws.flatten.length)) ∧
      Throughout memoStep Memo.InBounds ws (sysMemo byte) := by
  intro h
  have hws : ∀ w ∈ [List.replicate MEMOSIZE 97], 0 ∉ w := by
    intro w hw
    rw [List.mem_singleton.mp hw, List.mem_replicate]
    exact fun h0 => absurd h0.2 (by decide)
  have hb := (throughout_inBounds (sysMemo_inBounds fun _ => 0)).mp
    (h (fun _ => 0) (fun _ => 0) _ hws).2
  rw [List.flatten_singleton, List.length_replicate] at hb
  exact absurd hb (by decide)

end OsPlayground
