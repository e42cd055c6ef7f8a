import Mathlib.Data.List.GetD
import OsPlayground.Scsh.Print

/-!
# From the atoms of an application to `exec`

The last part of the case `APPLY` of `runexp`: the strings of the atoms go to the rows of `xargv`, one
after the other, and the rows to `exec`.

* `applyAtoms`: as the code does it; a write outside `argv` and `xargv` ends the run.
* `Reaches`: the strings of a call get to `exec` as they are.
* **`applyAtoms_iff`**: the strings that arrive intact.
* `Arrays.passed`, `applyAtoms_passed`: what `exec` reads.
-/

namespace OsPlayground

namespace Scsh

/-! ## The code -/

/-- `MAXARGL` of `scsh.c`. -/
abbrev MAXARGL : ℕ := 10

/-- The bytes of a string. -/
def str (s : String) : List ℕ := s.toList.map Char.toNat

/-- The names that `runexp` knows. -/
def builtins : List (List ℕ) :=
  ["defun", "if", "equal", "minus", "repeat", "pend", "con", "clk", "pipe"].map str

/-- A pointer in `argv`. -/
inductive Arg
  | null
  /-- The `symbol` of an atom, with its characters. -/
  | symbol (s : List ℕ)
  /-- `xargv[j]`. -/
  | row (j : ℕ)

/-- The arrays of `runexp`; `xargv[j][k]` is the byte `j * MAXARGL + k`. -/
structure Arrays where
  argv : ℕ → Arg
  xargv : ℕ → ℕ

namespace Arrays

/-- `argv[i] = a`, or `none` outside `argv`. -/
def setArg (i : ℕ) (a : Arg) (f : Arrays) : Option Arrays :=
  if i < MAXARGS then some { f with argv := Function.update f.argv i a } else none

/-- The bytes after `strcpy(xargv[j], s)`. -/
def putRow (j : ℕ) (s : List ℕ) (x : ℕ → ℕ) : ℕ → ℕ := fun q =>
  if j * MAXARGL ≤ q ∧ q ≤ j * MAXARGL + s.length then s.getD (q - j * MAXARGL) 0 else x q

/-- `strcpy(xargv[j], s)`, or `none` outside `xargv`. -/
def strcpyRow (j : ℕ) (s : List ℕ) (f : Arrays) : Option Arrays :=
  if j * MAXARGL + s.length < MAXARGS * MAXARGL then some { f with xargv := putRow j s f.xargv }
  else none

/-- `argv[i] = symbol` for the atoms from index `i` on. -/
def setSymbols : ℕ → List (List ℕ) → Arrays → Option Arrays
  | _, [], f => some f
  | i, s :: l, f => (f.setArg i (.symbol s)).bind (setSymbols (i + 1) l)

/-- The loop over `argv` before `exec`, from index `j` on, with `n` rounds to go. -/
def copySymbols : ℕ → ℕ → Arrays → Option Arrays
  | 0, _, f => some f
  | n + 1, j, f =>
    match f.argv j with
    | .null => some f
    | .row _ => copySymbols n (j + 1) f
    | .symbol s =>
      (f.strcpyRow j s).bind fun f => (f.setArg j (.row j)).bind (copySymbols n (j + 1))

/-- The string in `xargv[j]`. -/
def rowString (x : ℕ → ℕ) (j : ℕ) : List ℕ :=
  ((List.range (MAXARGS * MAXARGL - j * MAXARGL)).map fun k => x (j * MAXARGL + k)).takeWhile (· ≠ 0)

/-- The string that a pointer leads to. -/
def string (f : Arrays) : Arg → Option (List ℕ)
  | .null => none
  | .symbol s => some s
  | .row j => some (rowString f.xargv j)

/-- The strings of `argv` from index `i` on, up to the null pointer. -/
def passed (f : Arrays) : ℕ → ℕ → List (List ℕ)
  | 0, _ => []
  | n + 1, i =>
    match f.string (f.argv i) with
    | none => []
    | some s => s :: f.passed n (i + 1)

end Arrays

/-- What `runexp` does with an application of atoms. -/
inductive Called
  /-- There is no head, or it is a builtin or the name of a stored function. -/
  | other
  /-- A write outside `argv` and `xargv`. -/
  | outside
  /-- `exec(argv[0], argv)`. -/
  | exec (f : Arrays)

/-- `runexp` of an application of the atoms `l`; `names` are the names in `sh->funcs`. -/
def applyAtoms (names : List (List ℕ)) (l : List (List ℕ)) (f : Arrays) : Called :=
  (f.setArg l.length .null).elim .outside fun f =>
    if l.isEmpty || builtins.contains (l.headD []) || names.contains (l.headD []) then .other
    else ((f.setSymbols 0 l).bind (Arrays.copySymbols MAXARGS 0)).elim .outside .exec

/-! ## What should arrive -/

/-- The string `s` with its NUL stands at `a`. -/
def StrAt (x : ℕ → ℕ) (a : ℕ) (s : List ℕ) : Prop := ∀ k ≤ s.length, x (a + k) = s.getD k 0

/-- `argv[i]` points to the string `s`. -/
def Arrays.Points (f : Arrays) (i : ℕ) (s : List ℕ) : Prop :=
  match f.argv i with
  | .null => False
  | .symbol t => t = s
  | .row j => StrAt f.xargv (j * MAXARGL) s

/-- `exec` is called with the strings of the atoms and a null pointer after them. -/
def Reaches (names : List (List ℕ)) (l : List (List ℕ)) (f : Arrays) : Prop :=
  ∃ f', applyAtoms names l f = .exec f' ∧ (∀ i (h : i < l.length), f'.Points i l[i]) ∧
    f'.argv l.length = .null

/-- The string `t` after `s` does not change what is read at `s`. -/
def Follows (s t : List ℕ) : Prop := s.length < MAXARGL ∨ s.drop MAXARGL = t

/-! ## The copies -/

/-- The bytes after the strings `l` went to the rows from `j` on. -/
def copied : ℕ → List (List ℕ) → (ℕ → ℕ) → ℕ → ℕ
  | _, [], x => x
  | j, s :: l, x => copied (j + 1) l (Arrays.putRow j s x)

/-- The strings `l` fit into `xargv` from row `j` on. -/
def Inside : ℕ → List (List ℕ) → Prop
  | _, [] => True
  | j, s :: l => j * MAXARGL + s.length < MAXARGS * MAXARGL ∧ Inside (j + 1) l

/-- The strings `l` stand in the rows from `j` on. -/
def AllAt (x : ℕ → ℕ) : ℕ → List (List ℕ) → Prop
  | _, [] => True
  | j, s :: l => StrAt x (j * MAXARGL) s ∧ AllAt x (j + 1) l

section Copies

variable {f : Arrays} {l : List (List ℕ)} {s t : List ℕ} {x : ℕ → ℕ} {i j n q a : ℕ}

theorem forall_rows (P : ℕ → List ℕ → Prop) (j : ℕ) (s : List ℕ) (l : List (List ℕ)) :
    (∀ i (h : i < (s :: l).length), P (j + i) (s :: l)[i]) ↔
      P j s ∧ ∀ i (h : i < l.length), P (j + 1 + i) l[i] := by
  constructor
  · refine fun h => ⟨h 0 (Nat.succ_pos _), fun i hi => ?_⟩
    have := h (i + 1) (Nat.succ_lt_succ hi)
    rwa [show j + (i + 1) = j + 1 + i by omega] at this
  · rintro ⟨hs, hl⟩ i h
    cases i with
    | zero => exact hs
    | succ i =>
      have := hl i (Nat.lt_of_succ_lt_succ h)
      rwa [show j + 1 + i = j + (i + 1) by omega] at this

theorem inside_iff : Inside j l ↔
    ∀ i (h : i < l.length), (j + i) * MAXARGL + l[i].length < MAXARGS * MAXARGL := by
  induction l generalizing j with
  | nil => exact iff_of_true trivial fun i h => absurd h (Nat.not_lt_zero i)
  | cons s l ih =>
    rw [Inside, ih]
    exact (forall_rows (fun i s => i * MAXARGL + s.length < MAXARGS * MAXARGL) j s l).symm

theorem allAt_iff : AllAt x j l ↔ ∀ i (h : i < l.length), StrAt x ((j + i) * MAXARGL) l[i] := by
  induction l generalizing j with
  | nil => exact iff_of_true trivial fun i h => absurd h (Nat.not_lt_zero i)
  | cons s l ih =>
    rw [AllAt, ih]
    exact (forall_rows (fun i s => StrAt x (i * MAXARGL) s) j s l).symm

theorem copied_of_lt (hq : q < j * MAXARGL) : copied j l x q = x q := by
  induction l generalizing j x with
  | nil => rfl
  | cons s l ih =>
    have hle : j * MAXARGL ≤ (j + 1) * MAXARGL := Nat.mul_le_mul_right _ (Nat.le_succ j)
    rw [copied, ih (by omega), Arrays.putRow, if_neg (by omega)]

/-- A string without NUL in it is determined by where it stands. -/
theorem strAt_unique (hs : 0 ∉ s) (ht : 0 ∉ t) (h : StrAt x a s) (h' : StrAt x a t) : s = t := by
  induction s generalizing a t with
  | nil =>
    cases t with
    | nil => rfl
    | cons d t =>
      have h₀ := (h 0 le_rfl).symm.trans (h' 0 (Nat.zero_le _))
      rw [List.getD_nil, List.getD_cons_zero] at h₀
      exact absurd (h₀ ▸ List.mem_cons_self) ht
  | cons c s ih =>
    have h₀ := (h 0 (Nat.zero_le _)).symm.trans (h' 0 (Nat.zero_le _))
    rw [List.getD_cons_zero] at h₀
    cases t with
    | nil =>
      rw [List.getD_nil] at h₀
      exact absurd (h₀ ▸ List.mem_cons_self) hs
    | cons d t =>
      rw [List.getD_cons_zero] at h₀
      have htail : ∀ {u : List ℕ} {c : ℕ}, StrAt x a (c :: u) → StrAt x (a + 1) u := by
        intro u c hu k hk
        have := hu (k + 1) (Nat.succ_le_succ hk)
        rwa [List.getD_cons_succ, show a + (k + 1) = a + 1 + k by omega] at this
      rw [h₀, ih (fun hm => hs (List.mem_cons_of_mem _ hm)) (fun hm => ht (List.mem_cons_of_mem _ hm))
        (htail h) (htail h')]

theorem StrAt.drop (h : StrAt x (j * MAXARGL) s) (hlen : MAXARGL ≤ s.length) :
    StrAt x ((j + 1) * MAXARGL) (s.drop MAXARGL) := by
  intro k hk
  rw [List.length_drop] at hk
  have hrow : (j + 1) * MAXARGL = j * MAXARGL + MAXARGL := Nat.succ_mul j _
  have := h (MAXARGL + k) (by omega)
  rw [hrow, Nat.add_assoc, this, List.getD_eq_getElem?_getD, List.getD_eq_getElem?_getD,
    List.getElem?_drop]

/-- **After the copies** the strings stand in their rows if and only if each is short or goes on with
the next one. -/
theorem allAt_copied (hl : ∀ s ∈ l, 0 ∉ s) : AllAt (copied j l x) j l ↔ l.IsChain Follows := by
  induction l generalizing j x with
  | nil => exact iff_of_true trivial .nil
  | cons s l ih =>
    have hrow : (j + 1) * MAXARGL = j * MAXARGL + MAXARGL := Nat.succ_mul j _
    have hfirst : ∀ k ≤ s.length, k < MAXARGL →
        copied j (s :: l) x (j * MAXARGL + k) = s.getD k 0 := by
      intro k hk hlt
      rw [copied, copied_of_lt (by omega), Arrays.putRow, if_pos ⟨by omega, by omega⟩,
        Nat.add_sub_cancel_left]
    rw [AllAt, copied, ih fun t ht => hl t (List.mem_cons_of_mem _ ht)]
    cases l with
    | nil =>
      refine iff_of_true ⟨fun k hk => ?_, .nil⟩ (.singleton s)
      rw [copied, Arrays.putRow, if_pos ⟨by omega, by omega⟩, Nat.add_sub_cancel_left]
    | cons t l =>
      rw [List.isChain_cons_cons]
      refine and_congr_left fun hchain => ?_
      have hnext : StrAt (copied (j + 1) (t :: l) (Arrays.putRow j s x)) ((j + 1) * MAXARGL) t :=
        ((ih fun t ht => hl t (List.mem_cons_of_mem _ ht)).2 hchain).1
      constructor
      · intro h
        rcases Nat.lt_or_ge s.length MAXARGL with hlt | hge
        · exact Or.inl hlt
        · right
          exact strAt_unique (fun hm => hl s List.mem_cons_self (List.mem_of_mem_drop hm))
            (hl t (List.mem_cons_of_mem _ List.mem_cons_self)) (h.drop hge) hnext
      · intro hfollow k hk
        by_cases hlt : k < MAXARGL
        · exact hfirst k hk hlt
        · have hdrop : s.drop MAXARGL = t := hfollow.resolve_left (by omega)
          have hlen := congrArg List.length hdrop
          rw [List.length_drop] at hlen
          have := hnext (k - MAXARGL) (by omega)
          rw [hrow, show j * MAXARGL + MAXARGL + (k - MAXARGL) = j * MAXARGL + k by omega] at this
          rw [this, ← hdrop, List.getD_eq_getElem?_getD, List.getD_eq_getElem?_getD,
            List.getElem?_drop, show MAXARGL + (k - MAXARGL) = k by omega]

/-- The atoms' pointers. -/
theorem setSymbols_spec (h : i + l.length ≤ MAXARGS) : ∃ a, f.setSymbols i l = some ⟨a, f.xargv⟩ ∧
    (∀ n (hn : n < l.length), a (i + n) = .symbol l[n]) ∧
      ∀ k, k < i ∨ i + l.length ≤ k → a k = f.argv k := by
  induction l generalizing i f with
  | nil => exact ⟨f.argv, rfl, fun n hn => absurd hn (Nat.not_lt_zero n), fun _ _ => rfl⟩
  | cons s l ih =>
    rw [List.length_cons] at h
    have hset : f.setArg i (.symbol s) =
        some ⟨Function.update f.argv i (.symbol s), f.xargv⟩ := if_pos (by omega)
    obtain ⟨a, ha, hsym, hout⟩ := ih (i := i + 1)
      (f := ⟨Function.update f.argv i (.symbol s), f.xargv⟩) (by omega)
    refine ⟨a, by rw [Arrays.setSymbols, hset]; exact ha, fun n hn => ?_, fun k hk => ?_⟩
    · cases n with
      | zero =>
        rw [Nat.add_zero, hout i (Or.inl (Nat.lt_succ_self i))]
        exact Function.update_self _ _ _
      | succ n =>
        have := hsym n (Nat.lt_of_succ_lt_succ hn)
        rwa [show i + 1 + n = i + (n + 1) by omega] at this
    · rw [List.length_cons] at hk
      rw [hout k (by omega)]
      exact Function.update_of_ne (by omega) _ _

/-- **The loop before `exec`.** -/
theorem copySymbols_spec (hn : l.length < n) (hj : j + l.length < MAXARGS)
    (hsym : ∀ i (hi : i < l.length), f.argv (j + i) = .symbol l[i])
    (hnull : f.argv (j + l.length) = .null) :
    (Inside j l → ∃ a, f.copySymbols n j = some ⟨a, copied j l f.xargv⟩ ∧
        (∀ i < l.length, a (j + i) = .row (j + i)) ∧
          ∀ k, k < j ∨ j + l.length ≤ k → a k = f.argv k) ∧
      (¬ Inside j l → f.copySymbols n j = none) := by
  induction l generalizing n j f with
  | nil =>
    obtain ⟨n, rfl⟩ : ∃ n', n = n' + 1 := ⟨n - 1, by simp at hn; omega⟩
    have hstop : f.copySymbols (n + 1) j = some f := by
      rw [Arrays.copySymbols, show f.argv j = .null from hnull]
    exact ⟨fun _ => ⟨f.argv, hstop, fun i hi => absurd hi (Nat.not_lt_zero i), fun _ _ => rfl⟩,
      fun h => absurd trivial h⟩
  | cons s l ih =>
    rw [List.length_cons] at hn hj hnull
    obtain ⟨n, rfl⟩ : ∃ n', n = n' + 1 := ⟨n - 1, by omega⟩
    have hhead : f.argv j = .symbol s := hsym 0 (Nat.succ_pos _)
    have hround : f.copySymbols (n + 1) j = (f.strcpyRow j s).bind fun f =>
        (f.setArg j (.row j)).bind (Arrays.copySymbols n (j + 1)) := by
      rw [Arrays.copySymbols, hhead]
    by_cases hfit : j * MAXARGL + s.length < MAXARGS * MAXARGL
    · let g : Arrays := ⟨Function.update f.argv j (.row j), Arrays.putRow j s f.xargv⟩
      have hstep : f.copySymbols (n + 1) j = g.copySymbols n (j + 1) := by
        rw [hround, Arrays.strcpyRow, if_pos hfit, Option.bind_some, Arrays.setArg,
          if_pos (show j < MAXARGS by omega), Option.bind_some]
      have hg : ∀ k ≠ j, g.argv k = f.argv k := fun k hk => Function.update_of_ne hk _ _
      obtain ⟨hin, hout⟩ := ih (f := g) (n := n) (j := j + 1) (by omega) (by omega)
        (fun i hi => by
          rw [hg _ (by omega), show j + 1 + i = j + (i + 1) by omega]
          exact hsym (i + 1) (Nat.succ_lt_succ hi))
        (by rw [hg _ (by omega), show j + 1 + l.length = j + (l.length + 1) by omega]; exact hnull)
      refine ⟨fun h => ?_, fun h => by rw [hstep, hout fun h' => h ⟨hfit, h'⟩]⟩
      obtain ⟨a, ha, hrow, hkeep⟩ := hin h.2
      refine ⟨a, by rw [hstep, ha]; rfl, fun i hi => ?_, fun k hk => ?_⟩
      · cases i with
        | zero =>
          rw [Nat.add_zero, hkeep j (Or.inl (Nat.lt_succ_self j))]
          exact Function.update_self _ _ _
        | succ i =>
          have := hrow i (Nat.lt_of_succ_lt_succ hi)
          rwa [show j + 1 + i = j + (i + 1) by omega] at this
      · rw [List.length_cons] at hk
        rw [hkeep k (by omega), hg k (by omega)]
    · exact ⟨fun h => absurd h.1 hfit, fun _ => by
        rw [hround, Arrays.strcpyRow, if_neg hfit, Option.bind_none]⟩

end Copies

section Call

variable {names l : List (List ℕ)}

/-- Fewer than `MAXARGS` strings, each of which fits into `xargv` from its row on. -/
def FitsArgv (l : List (List ℕ)) : Prop := l.length < MAXARGS ∧ Inside 0 l

theorem fitsArgv_iff : FitsArgv l ↔ l.length < MAXARGS ∧
    ∀ i (h : i < l.length), i * MAXARGL + l[i].length < MAXARGS * MAXARGL := by
  rw [FitsArgv, inside_iff]
  simp only [Nat.zero_add]

/-- **What `runexp` does with the atoms**: they are in the rows when `exec` is called, or a write went
outside. -/
theorem applyAtoms_spec (hne : l ≠ [])
    (hhead : l.headD [] ∉ builtins ∧ l.headD [] ∉ names) (f : Arrays) :
    (FitsArgv l → ∃ a, applyAtoms names l f = .exec ⟨a, copied 0 l f.xargv⟩ ∧
        (∀ i < l.length, a i = .row i) ∧ a l.length = .null) ∧
      (¬ FitsArgv l → applyAtoms names l f = .outside) := by
  have hno : ¬ (l.isEmpty || builtins.contains (l.headD []) || names.contains (l.headD [])) := by
    rw [Bool.or_eq_true, Bool.or_eq_true, List.isEmpty_iff, List.contains_iff_mem,
      List.contains_iff_mem, or_assoc]
    exact not_or.2 ⟨hne, not_or.2 hhead⟩
  by_cases hlen : l.length < MAXARGS
  swap
  · refine ⟨fun h => absurd h.1 hlen, fun _ => ?_⟩
    rw [applyAtoms, Arrays.setArg, if_neg hlen, Option.elim_none]
  obtain ⟨a, ha, hsym, hkeep⟩ := setSymbols_spec (i := 0) (l := l)
    (f := ⟨Function.update f.argv l.length .null, f.xargv⟩) (by omega)
  have hnull : a (0 + l.length) = .null := by
    rw [hkeep _ (Or.inr le_rfl), Nat.zero_add]
    exact Function.update_self _ _ _
  obtain ⟨hin, hout⟩ := copySymbols_spec (f := ⟨a, f.xargv⟩) (n := MAXARGS) (j := 0) hlen
    (by omega) hsym hnull
  have hcall : applyAtoms names l f =
      (Arrays.copySymbols MAXARGS 0 ⟨a, f.xargv⟩).elim .outside .exec := by
    rw [applyAtoms, Arrays.setArg, if_pos hlen, Option.elim_some, if_neg hno, ha, Option.bind_some]
  refine ⟨fun hfit => ?_, fun hfit => ?_⟩
  · obtain ⟨b, hb, hrow, hkeep'⟩ := hin hfit.2
    refine ⟨b, by rw [hcall, hb, Option.elim_some], fun i hi => ?_, ?_⟩
    · have := hrow i hi
      rwa [Nat.zero_add] at this
    · have hend := (hkeep' (0 + l.length) (Or.inr le_rfl)).trans hnull
      rwa [Nat.zero_add] at hend
  · rw [hcall, hout fun h => hfit ⟨hlen, h⟩, Option.elim_none]

theorem applyAtoms_names (h : l.headD [] ∈ names) (f : Arrays) :
    applyAtoms names l f = .outside ∨ applyAtoms names l f = .other := by
  have hyes : l.isEmpty || builtins.contains (l.headD []) || names.contains (l.headD []) := by
    rw [Bool.or_eq_true]
    exact .inr (List.contains_iff_mem.2 h)
  rw [applyAtoms]
  cases f.setArg l.length .null with
  | none => exact .inl rfl
  | some f => exact .inr (by rw [Option.elim_some, if_pos hyes])

/-- The bytes `g 0`, `g 1`, ... up to the NUL. -/
theorem takeWhile_range_iff {s : List ℕ} (hs : 0 ∉ s) {n : ℕ} (hn : s.length < n) (g : ℕ → ℕ) :
    ((List.range n).map g).takeWhile (· ≠ 0) = s ↔ ∀ k ≤ s.length, g k = s.getD k 0 := by
  induction s generalizing n g with
  | nil =>
    obtain ⟨n, rfl⟩ : ∃ n', n = n' + 1 := ⟨n - 1, by rw [List.length_nil] at hn; omega⟩
    rw [List.range_succ_eq_map, List.map_cons, List.takeWhile_cons]
    by_cases h₀ : g 0 = 0
    · refine iff_of_true (by simp [h₀]) fun k hk => ?_
      rw [Nat.le_zero.1 hk]
      exact h₀
    · exact iff_of_false (by simp [h₀]) fun h => h₀ (h 0 le_rfl)
  | cons c s ih =>
    rw [List.length_cons] at hn ⊢
    obtain ⟨n, rfl⟩ : ∃ n', n = n' + 1 := ⟨n - 1, by omega⟩
    have hc : c ≠ 0 := fun h => hs (h ▸ List.mem_cons_self)
    have htail := ih (fun h => hs (List.mem_cons_of_mem _ h)) (n := n) (by omega) (g ∘ Nat.succ)
    have hsplit : (∀ k ≤ s.length + 1, g k = (c :: s).getD k 0) ↔
        g 0 = c ∧ ∀ k ≤ s.length, (g ∘ Nat.succ) k = s.getD k 0 := by
      refine ⟨fun h => ⟨h 0 (Nat.zero_le _), fun k hk => ?_⟩, fun h k hk => ?_⟩
      · exact h (k + 1) (Nat.succ_le_succ hk)
      · cases k with
        | zero => exact h.1
        | succ k => exact h.2 k (Nat.le_of_succ_le_succ hk)
    rw [hsplit, ← htail, List.range_succ_eq_map, List.map_cons, List.map_map, List.takeWhile_cons]
    by_cases h₀ : g 0 = 0
    · refine iff_of_false (by simp [h₀]) fun h => hc (h.1.symm.trans h₀)
    · simp [h₀]

theorem rowString_eq_iff {x : ℕ → ℕ} {j : ℕ} {s : List ℕ} (hs : 0 ∉ s)
    (hfit : j * MAXARGL + s.length < MAXARGS * MAXARGL) :
    Arrays.rowString x j = s ↔ StrAt x (j * MAXARGL) s :=
  takeWhile_range_iff hs (by omega) fun k => x (j * MAXARGL + k)

theorem passed_rows {f : Arrays} {x : ℕ → ℕ} {n i : ℕ} (hx : f.xargv = x) (hn : l.length < n)
    (hrow : ∀ m < l.length, f.argv (i + m) = .row (i + m)) (hnull : f.argv (i + l.length) = .null) :
    f.passed n i = l ↔ ∀ m (h : m < l.length), Arrays.rowString x (i + m) = l[m] := by
  induction l generalizing n i with
  | nil =>
    obtain ⟨n, rfl⟩ : ∃ n', n = n' + 1 := ⟨n - 1, by rw [List.length_nil] at hn; omega⟩
    refine iff_of_true ?_ fun m hm => absurd hm (Nat.not_lt_zero m)
    rw [Arrays.passed, show f.argv i = .null from hnull]
    rfl
  | cons s l ih =>
    rw [List.length_cons] at hn hnull hrow
    obtain ⟨n, rfl⟩ : ∃ n', n = n' + 1 := ⟨n - 1, by omega⟩
    have hhead : f.argv i = .row i := hrow 0 (Nat.succ_pos _)
    have htail := ih (n := n) (i := i + 1) (by omega)
      (fun m hm => by
        rw [show i + 1 + m = i + (m + 1) by omega]
        exact hrow (m + 1) (Nat.succ_lt_succ hm))
      (by rw [show i + 1 + l.length = i + (l.length + 1) by omega]; exact hnull)
    rw [forall_rows (fun i s => Arrays.rowString x i = s) i s l, ← htail, Arrays.passed, hhead]
    simp only [Arrays.string, hx, List.cons.injEq]

/-- **What `exec` reads** is the strings of the atoms if and only if each has fewer than `MAXARGL`
characters or goes on with the next one. -/
theorem applyAtoms_passed (hne : l ≠ []) (hl : ∀ s ∈ l, 0 ∉ s)
    (hhead : l.headD [] ∉ builtins ∧ l.headD [] ∉ names) (f : Arrays) (hfit : FitsArgv l) :
    ∃ f', applyAtoms names l f = .exec f' ∧ (f'.passed MAXARGS 0 = l ↔ l.IsChain Follows) := by
  obtain ⟨a, hcall, hrow, hnull⟩ := (applyAtoms_spec hne hhead f).1 hfit
  refine ⟨_, hcall, ?_⟩
  have hinside := (fitsArgv_iff.1 hfit).2
  rw [← allAt_copied (j := 0) (x := f.xargv) hl, allAt_iff,
    passed_rows rfl hfit.1 (by simpa only [Nat.zero_add] using hrow) (by rwa [Nat.zero_add])]
  refine forall_congr' fun i => forall_congr' fun hi => ?_
  rw [Nat.zero_add]
  exact rowString_eq_iff (hl _ (List.getElem_mem hi)) (hinside i hi)

end Call

/-- **Arguments reach `exec` intact** if and only if there are fewer than `MAXARGS`, each fits into
`xargv` from its row on, and each has fewer than `MAXARGL` characters or goes on with the next one. -/
theorem applyAtoms_iff {names l : List (List ℕ)} (hne : l ≠ []) (hl : ∀ s ∈ l, 0 ∉ s)
    (hhead : l.headD [] ∉ builtins ∧ l.headD [] ∉ names) (f : Arrays) :
    Reaches names l f ↔ l.length < MAXARGS ∧
      (∀ i (h : i < l.length), i * MAXARGL + l[i].length < MAXARGS * MAXARGL) ∧
        l.IsChain Follows := by
  rw [← and_assoc, ← fitsArgv_iff]
  obtain ⟨hin, hout⟩ := applyAtoms_spec hne hhead f
  by_cases hfit : FitsArgv l
  · obtain ⟨a, hcall, hrow, hnull⟩ := hin hfit
    have hpoints : ∀ i (h : i < l.length), Arrays.Points ⟨a, copied 0 l f.xargv⟩ i l[i] ↔
        StrAt (copied 0 l f.xargv) ((0 + i) * MAXARGL) l[i] := by
      intro i h
      have hi := hrow i h
      rw [Nat.zero_add]
      simp only [Arrays.Points, hi]
    have hall := allAt_copied (j := 0) (x := f.xargv) hl
    rw [allAt_iff] at hall
    rw [← hall]
    constructor
    · rintro ⟨f', h, hp, -⟩
      rw [hcall] at h
      obtain rfl := Called.exec.inj h
      exact ⟨hfit, fun i hi => (hpoints i hi).1 (hp i hi)⟩
    · rintro ⟨-, hp⟩
      exact ⟨_, hcall, fun i hi => (hpoints i hi).2 (hp i hi), hnull⟩
  · refine iff_of_false ?_ fun h => hfit h.1
    rintro ⟨f', h, -⟩
    rw [hout hfit] at h
    cases h

/-- `ls` with two file names. -/
theorem applyAtoms_iff_ls :
    Reaches [] [str "ls", str "README", str "a"] ⟨fun _ => .null, fun _ => 0⟩ ↔
    [str "ls", str "README", str "a"].length < MAXARGS ∧
      (∀ i (h : i < [str "ls", str "README", str "a"].length), i * MAXARGL +
        [str "ls", str "README", str "a"][i].length < MAXARGS * MAXARGL) ∧
        [str "ls", str "README", str "a"].IsChain Follows :=
  applyAtoms_iff (by decide) (by decide) (by decide) _

/-- `echo abcdefghij k` calls `exec` with `abcdefghijk`. -/
theorem not_reaches : ¬ ∀ (names l : List (List ℕ)) (f : Arrays), l ≠ [] → l.length ≤ MAXARGS →
    (∀ s ∈ l, 0 ∉ s) → l.headD [] ∉ builtins ∧ l.headD [] ∉ names → Reaches names l f := by
  intro h
  obtain ⟨f', hf, hp, -⟩ := h [] [str "echo", str "abcdefghij", str "k"]
    ⟨fun _ => .null, fun _ => 0⟩ (by decide) (by decide) (by decide) (by decide)
  have hcall : applyAtoms [] [str "echo", str "abcdefghij", str "k"]
      ⟨fun _ => .null, fun _ => 0⟩ = .exec _ := rfl
  rw [hcall] at hf
  obtain rfl := Called.exec.inj hf
  have hend := hp 1 (by decide) 10 (by decide)
  exact absurd hend (by decide)

end Scsh

end OsPlayground
