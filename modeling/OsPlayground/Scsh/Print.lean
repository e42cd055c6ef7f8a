import OsPlayground.Scsh.Parse
import Mathlib.Data.List.TakeWhile

/-!
# Printing an expression and parsing it again

An expression is printed with one space between two elements, and `parseexp` gets it back:

* `Exp`, `print`; `layout`: the tree of a printed expression that starts at `p`.
* `skips_print`: the scan of `parselist` passes over a printed expression.
* **`parsesexp_print`**: the parser finds the layout.
* `ends_break`: `snulterminate` writes over a space, a parenthesis or the NUL, never into an atom.
* **`parseexp_print`**: the tree that comes back is the expression.
-/

namespace OsPlayground

namespace Scsh

/-- An expression, with the bytes of its atoms. -/
inductive Exp
  | atom (symbol : List ℕ)
  | list (type : Kind) (sexps : List Exp)

/-- What ends an atom: whitespace, a parenthesis or the NUL. -/
def Break (c : ℕ) : Prop := isSpace c = true ∨ isSymbol c = true ∨ c = 0

/-- A string that can be an atom. -/
structure AtomOk (s : List ℕ) : Prop where
  ne_nil : s ≠ []
  chars : ∀ c ∈ s, ¬ Break c
  quote : s.head? ≠ some 39

/-- An expression that can be printed. -/
inductive Exp.Ok : Exp → Prop
  | atom {s : List ℕ} : AtomOk s → Exp.Ok (.atom s)
  | list {k : Kind} {l : List Exp} : l.length ≤ MAXARGS → (∀ e ∈ l, Exp.Ok e) → Exp.Ok (.list k l)

/-- The bytes before the first element. -/
def opening : Kind → List ℕ
  | .APPLY => [40]
  | .LIST => [39, 40]

mutual

/-- The text of an expression. -/
def print : Exp → List ℕ
  | .atom s => s
  | .list k l => opening k ++ (prints l ++ [41])

/-- The elements, one space between two of them. -/
def prints : List Exp → List ℕ
  | [] => []
  | e :: l => print e ++ more l

/-- Further elements, each after its space. -/
def more : List Exp → List ℕ
  | [] => []
  | e :: l => 32 :: (print e ++ more l)

end

mutual

/-- The tree of the expression that is printed at `p`. -/
def layout (p : ℕ) : Exp → Sexp
  | .atom s => .atom p (p + s.length)
  | .list k l => .list k (layouts (p + (opening k).length) l)

/-- The trees of the elements, the first printed at `p`. -/
def layouts (p : ℕ) : List Exp → List Sexp
  | [] => []
  | e :: l => layout p e :: layouts (p + (print e).length + 1) l

end

mutual

/-- The tree has the shape and the types of the expression, and every symbol reads as its atom. -/
def Same (mem : ℕ → ℕ) : Exp → Sexp → Prop
  | .atom s, .atom a _ => (∀ i (h : i < s.length), mem (a + i) = s[i]) ∧ mem (a + s.length) = 0
  | .list k l, .list k' l' => k = k' ∧ Sames mem l l'
  | _, _ => False

/-- The same of every element. -/
def Sames (mem : ℕ → ℕ) : List Exp → List Sexp → Prop
  | [], [] => True
  | e :: l, t :: l' => Same mem e t ∧ Sames mem l l'
  | _, _ => False

end

/-! ## Bytes at a place -/

section At

variable {mem : ℕ → ℕ}

/-- The bytes `w` stand at `p`. -/
def At (mem : ℕ → ℕ) (p : ℕ) (w : List ℕ) : Prop := ∀ i (h : i < w.length), mem (p + i) = w[i]

theorem at_nil (p : ℕ) : At mem p [] := fun i h => absurd h (Nat.not_lt_zero i)

theorem at_cons {p c : ℕ} {w : List ℕ} : At mem p (c :: w) ↔ mem p = c ∧ At mem (p + 1) w := by
  constructor
  · intro h
    refine ⟨by simpa using h 0 (Nat.succ_pos _), fun i hi => ?_⟩
    have := h (i + 1) (Nat.succ_lt_succ hi)
    rwa [show p + (i + 1) = p + 1 + i by omega, List.getElem_cons_succ] at this
  · rintro ⟨h0, hw⟩ i hi
    cases i with
    | zero => simpa using h0
    | succ i =>
      have := hw i (Nat.lt_of_succ_lt_succ hi)
      rwa [show p + 1 + i = p + (i + 1) by omega] at this

theorem at_append {v w : List ℕ} : ∀ {p : ℕ},
    At mem p (v ++ w) ↔ At mem p v ∧ At mem (p + v.length) w := by
  induction v with
  | nil => exact fun {p} => by simp [at_nil]
  | cons c v ih =>
    intro p
    rw [List.cons_append, at_cons, at_cons, ih, List.length_cons, and_assoc,
      show p + 1 + v.length = p + (v.length + 1) by omega]

theorem at_bytesOf (s : List ℕ) : At (bytesOf s) 0 s := fun i h => by
  simp [bytesOf, h]

/-! ## The loops on known bytes -/

theorem skip_stop {p : ℕ → Bool} {s : ℕ} (h : p (mem s) = false) (k : ℕ) : skip mem p k s = s := by
  cases k <;> simp [skip, h]

theorem skip_end (p : ℕ → Bool) : ∀ k s, skip mem p k s = s + k ∨
    p (mem (skip mem p k s)) = false := by
  intro k
  induction k with
  | zero => exact fun s => .inl rfl
  | succ k ih =>
    intro s
    by_cases h : p (mem s) = true
    · rw [skip, if_pos h, ← Nat.add_assoc, Nat.add_right_comm]
      exact ih (s + 1)
    · rw [skip, if_neg h]
      exact .inr (by simpa using h)

theorem le_skip (p : ℕ → Bool) : ∀ k s, s ≤ skip mem p k s := by
  intro k
  induction k with
  | zero => exact fun s => le_refl s
  | succ k ih =>
    intro s
    rw [skip]
    split_ifs
    · exact (Nat.le_succ s).trans (ih (s + 1))
    · exact le_refl s

/-- The loop stops after the bytes that it skips, at its end or at a byte that it does not skip. -/
theorem skip_at {p : ℕ → Bool} : ∀ {w : List ℕ} {k s : ℕ}, At mem s w → (∀ c ∈ w, p c = true) →
    w.length ≤ k → (w.length = k ∨ p (mem (s + w.length)) = false) →
    skip mem p k s = s + w.length := by
  intro w
  induction w with
  | nil =>
    intro k s _ _ _ hend
    rcases hend with hend | hend
    · rw [← hend]; rfl
    · exact skip_stop (by simpa using hend) k
  | cons c w ih =>
    intro k s hat hall hk hend
    obtain ⟨h0, hw⟩ := at_cons.mp hat
    obtain ⟨k, rfl⟩ : ∃ j, k = j + 1 := ⟨k - 1, by simp only [List.length_cons] at hk; omega⟩
    have hlen : s + 1 + w.length = s + (c :: w).length := by
      simp only [List.length_cons]; omega
    have hc : p (mem s) = true := h0 ▸ hall c List.mem_cons_self
    rw [skip, if_pos hc, ← hlen]
    refine ih hw (fun d hd => hall d (List.mem_cons_of_mem c hd)) (Nat.le_of_succ_le_succ hk) ?_
    rw [hlen]
    exact hend.imp Nat.succ.inj id

end At

/-! ## The scan for the closing parenthesis -/

/-- The scan of `parselist` passes over `w` with its count as it was. -/
def Skips (w : List ℕ) : Prop := ∀ (mem : ℕ → ℕ) (p k i : ℕ), At mem p w →
  matching mem (w.length + k) (i + 1) p = matching mem k (i + 1) (p + w.length)

theorem skips_nil : Skips [] := fun mem p k i _ => by simp

theorem skips_append {v w : List ℕ} (hv : Skips v) (hw : Skips w) : Skips (v ++ w) := by
  intro mem p k i h
  obtain ⟨h1, h2⟩ := at_append.mp h
  rw [List.length_append, Nat.add_assoc, hv mem p _ i h1, hw mem _ k i h2, Nat.add_assoc]

theorem skips_single {c : ℕ} (h : isSymbol c = false) : Skips [c] := by
  intro mem p k i hat
  have hc := (at_cons.mp hat).1
  have h40 : c ≠ 40 := fun e => by simp [isSymbol, e] at h
  have h41 : c ≠ 41 := fun e => by simp [isSymbol, e] at h
  rw [List.length_singleton, Nat.add_comm 1 k, matching, hc, if_neg h40, if_neg h41]

theorem skips_of_forall {w : List ℕ} (h : ∀ c ∈ w, isSymbol c = false) : Skips w := by
  induction w with
  | nil => exact skips_nil
  | cons c w ih =>
    exact skips_append (skips_single (h c List.mem_cons_self))
      (ih fun d hd => h d (List.mem_cons_of_mem c hd))

theorem matching_close {mem : ℕ → ℕ} {p : ℕ} {w : List ℕ} (hw : Skips w)
    (h : At mem p (w ++ [41])) (k i : ℕ) :
    matching mem (w.length + (k + 1)) (i + 1) p =
      if i = 0 then p + w.length else matching mem k i (p + w.length + 1) := by
  obtain ⟨h1, h2⟩ := at_append.mp h
  rw [hw mem p _ i h1, matching, (at_cons.mp h2).1]
  simp

theorem skips_paren {w : List ℕ} (hw : Skips w) : Skips (40 :: (w ++ [41])) := by
  intro mem p k i h
  obtain ⟨h0, h1⟩ := at_cons.mp h
  have hlen : (40 :: (w ++ [41])).length + k = w.length + (k + 1) + 1 := by simp; omega
  rw [hlen, matching, if_pos h0, matching_close hw h1, if_neg (Nat.succ_ne_zero i)]
  congr 1
  simp; omega

theorem AtomOk.not_break {s : List ℕ} (h : AtomOk s) {c : ℕ} (hc : c ∈ s) :
    isSpace c = false ∧ isSymbol c = false ∧ c ≠ 0 := by
  have := h.chars c hc
  simp only [Break, not_or, Bool.not_eq_true] at this
  exact this

theorem skips_prints {l : List Exp} (h : ∀ e ∈ l, Skips (print e)) :
    Skips (prints l) ∧ Skips (more l) := by
  induction l with
  | nil => exact ⟨skips_nil, skips_nil⟩
  | cons e l ih =>
    have hl := (ih fun f hf => h f (List.mem_cons_of_mem e hf)).2
    have he := skips_append (h e List.mem_cons_self) hl
    exact ⟨he, skips_append (skips_single rfl) he⟩

/-- **The scan passes over a printed expression.** -/
theorem skips_print {e : Exp} (h : e.Ok) : Skips (print e) := by
  induction h with
  | atom hs => exact skips_of_forall fun c hc => (hs.not_break hc).2.1
  | @list k l _ _ ih =>
    have hp := skips_paren (skips_prints ih).1
    cases k with
    | APPLY => exact hp
    | LIST =>
      have hq : Skips [39] := skips_single rfl
      have hl : Skips ([39] ++ 40 :: (prints l ++ [41])) := skips_append hq hp
      exact hl

/-! ## The parser on a printed expression -/

theorem print_cons {e : Exp} (h : e.Ok) :
    ∃ c w, print e = c :: w ∧ isSpace c = false ∧ c ≠ 41 := by
  cases h with
  | @atom s hs =>
    obtain ⟨c, w, rfl⟩ := List.exists_cons_of_ne_nil hs.ne_nil
    obtain ⟨h1, h2, -⟩ := hs.not_break List.mem_cons_self
    exact ⟨c, w, rfl, h1, fun e => by simp [isSymbol, e] at h2⟩
  | @list k l => cases k <;> exact ⟨_, _, rfl, rfl, by decide⟩

theorem length_print_pos {e : Exp} (h : e.Ok) : 0 < (print e).length := by
  obtain ⟨c, w, he, -⟩ := print_cons h
  rw [he]
  exact Nat.succ_pos _

theorem length_print_le {e : Exp} {l : List Exp} (h : e ∈ l) :
    (print e).length ≤ (prints l).length ∧ (print e).length ≤ (more l).length := by
  induction l with
  | nil => exact absurd h List.not_mem_nil
  | cons f l ih =>
    simp only [prints, more, List.length_cons, List.length_append]
    rcases List.mem_cons.mp h with rfl | h
    · omega
    · have := (ih h).2
      omega

section Parse

variable {mem : ℕ → ℕ}

theorem skipWs_print {e : Exp} (h : e.Ok) {p : ℕ} (hat : At mem p (print e)) (es : ℕ) :
    skipWs mem p es = p := by
  obtain ⟨c, w, he, hc, -⟩ := print_cons h
  rw [he] at hat
  exact skip_stop ((at_cons.mp hat).1 ▸ hc) _

theorem skipWs_space {e : Exp} (h : e.Ok) {p es : ℕ} (hat : At mem p (32 :: print e))
    (hp : p < es) : skipWs mem p es = p + 1 := by
  obtain ⟨h0, h1⟩ := at_cons.mp hat
  have hk : es - p = es - (p + 1) + 1 := by omega
  have hsp : isSpace (mem p) = true := by rw [h0]; rfl
  rw [skipWs, hk, skip, if_pos hsp]
  exact skipWs_print h h1 es

/-- `parse` finds the expression that is printed at `p`, when it is asked for it with the end
`es`. -/
def Finds (mem : ℕ → ℕ) (parse : ℕ → ℕ → Except Stop (Sexp × ℕ)) (e : Exp) : Prop :=
  ∀ ps p es, skipWs mem ps es = p → At mem p (print e) → p + (print e).length ≤ es →
    (p + (print e).length = es ∨ mem (p + (print e).length) = 32) →
    parse ps es = .ok (layout p e, p + (print e).length)

variable {parse : ℕ → ℕ → Except Stop (Sexp × ℕ)}

theorem follow_more {l : List Exp} {q : ℕ} (hat : At mem q (more l)) :
    q = q + (more l).length ∨ mem q = 32 := by
  cases l with
  | nil => exact .inl rfl
  | cons e l => exact .inr (at_cons.mp hat).1

/-- The loop finds the elements that are left. -/
theorem elements_more {l : List Exp} : ∀ {n q : ℕ}, l.length ≤ n → (∀ e ∈ l, e.Ok) →
    (∀ e ∈ l, Finds mem parse e) → At mem q (more l) →
    elements parse (q + (more l).length) n q = .ok (layouts (q + 1) l, q + (more l).length) := by
  induction l with
  | nil =>
    intro n q _ _ _ _
    cases n <;> simp [elements, more, layouts]
  | cons e l ih =>
    intro n q hn hok hfind hat
    obtain ⟨n, rfl⟩ : ∃ m, n = m + 1 := ⟨n - 1, by simp only [List.length_cons] at hn; omega⟩
    have hlen : q + (more (e :: l)).length = q + 1 + (print e).length + (more l).length := by
      simp only [more, List.length_cons, List.length_append]; omega
    obtain ⟨h0, h1⟩ := at_cons.mp hat
    obtain ⟨hpe, hml⟩ := at_append.mp h1
    have hlt : q < q + (more (e :: l)).length := by omega
    have hws := skipWs_space (hok e List.mem_cons_self) (at_cons.mpr ⟨h0, hpe⟩) hlt
    have hfe := hfind e List.mem_cons_self q (q + 1) _ hws hpe (by omega)
      ((follow_more hml).imp (fun h => by omega) id)
    have hrest := ih (Nat.le_of_succ_le_succ hn) (fun f hf => hok f (List.mem_cons_of_mem e hf))
      (fun f hf => hfind f (List.mem_cons_of_mem e hf)) hml
    rw [elements, if_pos hlt, hfe]
    rw [← hlen] at hrest
    simp only [bind, Except.bind, hrest, pure, Except.pure, layouts]

theorem elements_prints {l : List Exp} {n q : ℕ} (hn : l.length ≤ n) (hok : ∀ e ∈ l, e.Ok)
    (hfind : ∀ e ∈ l, Finds mem parse e) (hat : At mem q (prints l)) :
    elements parse (q + (prints l).length) n q = .ok (layouts q l, q + (prints l).length) := by
  cases l with
  | nil => cases n <;> simp [elements, prints, layouts]
  | cons e l =>
    obtain ⟨n, rfl⟩ : ∃ m, n = m + 1 := ⟨n - 1, by simp only [List.length_cons] at hn; omega⟩
    have hlen : q + (prints (e :: l)).length = q + (print e).length + (more l).length := by
      simp only [prints, List.length_append]; omega
    obtain ⟨hpe, hml⟩ := at_append.mp hat
    have hpos := length_print_pos (hok e List.mem_cons_self)
    have hlt : q < q + (prints (e :: l)).length := by omega
    have hws := skipWs_print (hok e List.mem_cons_self) hpe (q + (prints (e :: l)).length)
    have hfe := hfind e List.mem_cons_self q q _ hws hpe (by omega)
      ((follow_more hml).imp (fun h => by omega) id)
    have hrest := elements_more (Nat.le_of_succ_le_succ hn)
      (fun f hf => hok f (List.mem_cons_of_mem e hf))
      (fun f hf => hfind f (List.mem_cons_of_mem e hf)) hml
    rw [elements, if_pos hlt, hfe]
    rw [← hlen] at hrest
    simp only [bind, Except.bind, hrest, pure, Except.pure, layouts]

theorem parselist_prints {l : List Exp} {q es : ℕ} (hn : l.length ≤ MAXARGS)
    (hok : ∀ e ∈ l, e.Ok) (hfind : ∀ e ∈ l, Finds mem parse e)
    (hat : At mem q (prints l ++ [41])) (hes : q + (prints l).length < es) :
    parselist mem parse q es = .ok (layouts q l, q + (prints l).length) := by
  have hskip := (skips_prints fun e he => skips_print (hok e he)).1
  have hk : es - q = (prints l).length + (es - (q + (prints l).length + 1) + 1) := by omega
  have hm : matching mem (es - q) 1 q = q + (prints l).length := by
    rw [hk, matching_close hskip hat _ 0, if_pos rfl]
  rw [parselist, hm, if_neg (by omega)]
  exact elements_prints hn hok hfind (at_append.mp hat).1

theorem finds_atom {s : List ℕ} (hs : AtomOk s) (fuel : ℕ) :
    Finds mem (parsesexp mem (fuel + 1)) (.atom s) := by
  intro ps p es hws hat hes hend
  have hat : At mem p s := hat
  have hes : p + s.length ≤ es := hes
  have hend : p + s.length = es ∨ mem (p + s.length) = 32 := hend
  obtain ⟨c, w, rfl⟩ := List.exists_cons_of_ne_nil hs.ne_nil
  obtain ⟨-, hsym, h0⟩ := hs.not_break List.mem_cons_self
  have hc : mem p = c := (at_cons.mp hat).1
  have h40 : c ≠ 40 := fun e => by simp [isSymbol, e] at hsym
  have h39 : c ≠ 39 := fun e => hs.quote (by simp [e])
  have hskip : skip mem (fun c => !isSpace c && !isSymbol c) (es - p) p = p + (c :: w).length := by
    refine skip_at hat (fun d hd => ?_) (by omega) ?_
    · obtain ⟨h1, h2, -⟩ := hs.not_break hd
      simp [h1, h2]
    · refine hend.imp (fun h => by omega) fun h => ?_
      rw [h]; rfl
  simp only [parsesexp, hws, hc]
  rw [parseatom, hskip]
  rfl

theorem parsesexp_list {fuel ps p es q : ℕ} {k : Kind} {l : List Sexp}
    (hws : skipWs mem ps es = p) (hp : mem p = match k with | .APPLY => 40 | .LIST => 39)
    (hl : parselist mem (parsesexp mem fuel) (p + (opening k).length) es = .ok (l, q)) :
    parsesexp mem (fuel + 1) ps es = .ok (.list k l, q + 1) := by
  cases k <;>
    · simp only [opening, List.length_cons, List.length_nil] at hl
      simp [parsesexp, hws, hp, hl, bind, Except.bind, pure, Except.pure]

/-- **The parser finds a printed expression**, with more fuel than it has bytes. -/
theorem parsesexp_print {e : Exp} (h : e.Ok) :
    ∀ fuel, (print e).length < fuel → Finds mem (parsesexp mem fuel) e := by
  induction h with
  | @atom s hs =>
    intro fuel hf
    obtain ⟨fuel, rfl⟩ : ∃ m, fuel = m + 1 := ⟨fuel - 1, by omega⟩
    exact finds_atom hs fuel
  | @list k l hn hok ih =>
    intro fuel hf ps p es hws hat hes hend
    obtain ⟨fuel, rfl⟩ : ∃ m, fuel = m + 1 := ⟨fuel - 1, by omega⟩
    have hlen : (print (.list k l)).length = (opening k).length + ((prints l).length + 1) := by
      simp [print]
    obtain ⟨hopen, hbody⟩ := at_append.mp hat
    have hfind : ∀ e ∈ l, Finds mem (parsesexp mem fuel) e := fun e he =>
      ih e he fuel (by
        have := (length_print_le he).1
        have : 0 < (opening k).length := by cases k <;> decide
        omega)
    have hlt : p + (opening k).length + (prints l).length < es := by omega
    have hl := parselist_prints hn hok hfind hbody hlt
    rw [parsesexp_list hws (by cases k <;> exact (at_cons.mp hopen).1) hl, layout, hlen]
    congr 2
    omega

end Parse

/-! ## The terminators -/

mutual

/-- Where `snulterminate` writes. -/
def ends : Sexp → List ℕ
  | .null => []
  | .atom _ e => [e]
  | .list _ l => endss l

/-- Where it writes in the elements. -/
def endss : List Sexp → List ℕ
  | [] => []
  | t :: l => ends t ++ endss l

end

mutual

theorem snulterminate_apply : ∀ (t : Sexp) (mem : ℕ → ℕ) (x : ℕ),
    snulterminate t mem x = if x ∈ ends t then 0 else mem x
  | .null, mem, x => by simp [snulterminate, ends]
  | .atom _ e, mem, x => by simp [snulterminate, ends, Function.update_apply]
  | .list _ l, mem, x => snulterminates_apply l mem x

theorem snulterminates_apply : ∀ (l : List Sexp) (mem : ℕ → ℕ) (x : ℕ),
    snulterminates l mem x = if x ∈ endss l then 0 else mem x
  | [], mem, x => by simp [snulterminates, endss]
  | t :: l, mem, x => by
    rw [snulterminates, snulterminates_apply l, snulterminate_apply t, endss]
    by_cases h1 : x ∈ ends t <;> by_cases h2 : x ∈ endss l <;> simp [h1, h2]

end

section Ends

variable {mem : ℕ → ℕ}

theorem break_of_more {l : List Exp} {q : ℕ} (hat : At mem q (more l))
    (hend : Break (mem (q + (more l).length))) : Break (mem q) := by
  rcases follow_more hat with h | h
  · rw [h]; exact hend
  · exact .inl (by rw [h]; rfl)

/-- What is said of the terminators of an expression, said of those of a list. -/
theorem endss_break {l : List Exp}
    (ih : ∀ e ∈ l, ∀ p, At mem p (print e) → Break (mem (p + (print e).length)) →
      ∀ x ∈ ends (layout p e), Break (mem x)) :
    ∀ {q : ℕ}, At mem q (prints l) → Break (mem (q + (prints l).length)) →
      ∀ x ∈ endss (layouts q l), Break (mem x) := by
  induction l with
  | nil => exact fun _ _ x hx => absurd hx List.not_mem_nil
  | cons e l ihl =>
    intro q hat hend x hx
    obtain ⟨hpe, hml⟩ := at_append.mp hat
    have hlen : q + (prints (e :: l)).length = q + (print e).length + (more l).length := by
      simp only [prints, List.length_append]; omega
    rw [hlen] at hend
    rw [layouts, endss, List.mem_append] at hx
    rcases hx with hx | hx
    · exact ih e List.mem_cons_self q hpe (break_of_more hml hend) x hx
    · cases l with
      | nil => exact absurd hx List.not_mem_nil
      | cons f l =>
        have hml' : At mem (q + (print e).length + 1) (prints (f :: l)) := (at_cons.mp hml).2
        refine ihl (fun g hg => ih g (List.mem_cons_of_mem e hg)) hml' ?_ x hx
        have hmore : (more (f :: l)).length = (prints (f :: l)).length + 1 := by
          simp [more, prints]
        rwa [hmore, ← Nat.add_assoc, Nat.add_right_comm] at hend

/-- **`snulterminate` writes over a byte that ends an atom.** -/
theorem ends_break {e : Exp} (h : e.Ok) : ∀ p, At mem p (print e) →
    Break (mem (p + (print e).length)) → ∀ x ∈ ends (layout p e), Break (mem x) := by
  induction h with
  | @atom s hs =>
    intro p _ hend x hx
    rw [List.mem_singleton.mp hx]
    exact hend
  | @list k l _ _ ih =>
    intro p hat _
    obtain ⟨h1, h2⟩ := at_append.mp (at_append.mp hat).2
    refine endss_break ih h1 (.inr (.inl ?_))
    rw [(at_cons.mp h2).1]
    rfl

theorem sames_of {mem' : ℕ → ℕ} {l : List Exp}
    (ih : ∀ e ∈ l, ∀ p, At mem p (print e) → (∀ x ∈ ends (layout p e), mem' x = 0) →
      Same mem' e (layout p e)) :
    ∀ {q : ℕ}, At mem q (prints l) → (∀ x ∈ endss (layouts q l), mem' x = 0) →
      Sames mem' l (layouts q l) := by
  induction l with
  | nil => exact fun _ _ => trivial
  | cons e l ihl =>
    intro q hat hends
    obtain ⟨hpe, hml⟩ := at_append.mp hat
    have hmem : ∀ x, x ∈ ends (layout q e) ∨ x ∈ endss (layouts (q + (print e).length + 1) l) →
        mem' x = 0 := fun x hx => hends x (List.mem_append.mpr hx)
    refine ⟨ih e List.mem_cons_self q hpe fun x hx => hmem x (.inl hx), ?_⟩
    cases l with
    | nil => trivial
    | cons f l =>
      exact ihl (fun g hg => ih g (List.mem_cons_of_mem e hg)) (at_cons.mp hml).2
        fun x hx => hmem x (.inr hx)

theorem same_of {mem' : ℕ → ℕ} (hkeep : ∀ x, ¬ Break (mem x) → mem' x = mem x) {e : Exp}
    (h : e.Ok) : ∀ p, At mem p (print e) → (∀ x ∈ ends (layout p e), mem' x = 0) →
      Same mem' e (layout p e) := by
  induction h with
  | @atom s hs =>
    intro p hat hends
    have hat : At mem p s := hat
    refine ⟨fun i hi => ?_, hends _ (List.mem_singleton.mpr rfl)⟩
    have hi' := hat i hi
    rw [hkeep _ (by rw [hi']; exact hs.chars _ (List.getElem_mem hi)), hi']
  | @list k l _ _ ih =>
    intro p hat hends
    exact ⟨rfl, sames_of ih (at_append.mp (at_append.mp hat).2).1 hends⟩

end Ends

/-! ## The whole line -/

theorem prints_ne_zero {l : List Exp} (h : ∀ e ∈ l, ∀ c ∈ print e, c ≠ 0) :
    (∀ c ∈ prints l, c ≠ 0) ∧ ∀ c ∈ more l, c ≠ 0 := by
  induction l with
  | nil => exact ⟨fun _ hc => absurd hc List.not_mem_nil, fun _ hc => absurd hc List.not_mem_nil⟩
  | cons e l ih =>
    have hmore := (ih fun f hf => h f (List.mem_cons_of_mem e hf)).2
    have hcat : ∀ c ∈ print e ++ more l, c ≠ 0 := fun c hc =>
      (List.mem_append.mp hc).elim (h e List.mem_cons_self c) (hmore c)
    refine ⟨hcat, fun c hc => ?_⟩
    rcases List.mem_cons.mp hc with rfl | hc
    · decide
    · exact hcat c hc

theorem print_ne_zero {e : Exp} (h : e.Ok) : ∀ c ∈ print e, c ≠ 0 := by
  induction h with
  | atom hs => exact fun c hc => (hs.not_break hc).2.2
  | @list k l _ _ ih =>
    intro c hc
    simp only [print, List.mem_append, List.mem_singleton] at hc
    rcases hc with hc | hc | rfl
    · cases k <;> simp [opening] at hc <;> omega
    · exact (prints_ne_zero ih).1 c hc
    · decide

theorem strlen_of_ne_zero {s : List ℕ} (h : ∀ c ∈ s, c ≠ 0) : strlen s = s.length := by
  rw [strlen, List.takeWhile_eq_self_iff.mpr fun c hc => by simpa using h c hc]

/-- **Parsing undoes printing**: `parseexp` of a printed expression is a tree of its shape and
types, and in the bytes that `snulterminate` leaves every symbol reads as the atom was. -/
theorem parseexp_print {e : Exp} (h : e.Ok) :
    ∃ t mem, parseexp (print e) = .ok (t, mem) ∧ Same mem e t := by
  have hat : At (bytesOf (print e)) 0 (print e) := at_bytesOf _
  have hlen := strlen_of_ne_zero (print_ne_zero h)
  have hp := parsesexp_print h _ (Nat.lt_succ_self _) 0 0 (print e).length
    (skipWs_print h hat _) hat (by omega) (.inl (by omega))
  refine ⟨layout 0 e, snulterminate (layout 0 e) (bytesOf (print e)), ?_, ?_⟩
  · simp [parseexp, hlen, hp, bind, Except.bind, pure, Except.pure, skipWs, skip]
  · have hnul : bytesOf (print e) (0 + (print e).length) = 0 := by simp [bytesOf]
    have hb := ends_break h 0 hat (.inr (.inr hnul))
    refine same_of (fun x hx => ?_) h 0 hat fun x hx => ?_
    · rw [snulterminate_apply, if_neg fun hmem => hx (hb x hmem)]
    · rw [snulterminate_apply, if_pos hx]

/-- `(a '(b (c)) d)` comes back. -/
theorem parseexp_print_nested : ∃ t mem,
    parseexp (print (.list .APPLY [.atom [97], .list .LIST [.atom [98], .list .APPLY [.atom [99]]],
      .atom [100]])) = .ok (t, mem) ∧
    Same mem (.list .APPLY [.atom [97], .list .LIST [.atom [98], .list .APPLY [.atom [99]]],
      .atom [100]]) t := by
  have hatom : ∀ c, 97 ≤ c → (Exp.atom [c]).Ok := fun c hc => by
    refine .atom ⟨by simp, fun d hd => ?_, by simp; omega⟩
    rw [List.mem_singleton.mp hd]
    simp [Break, isSpace, isSymbol]
    omega
  refine parseexp_print (.list (by decide) ?_)
  simp only [List.forall_mem_cons, List.not_mem_nil, false_implies, implies_true, and_true]
  refine ⟨hatom _ (by decide), .list (by decide) ?_, hatom _ (by decide)⟩
  simp only [List.forall_mem_cons, List.not_mem_nil, false_implies, implies_true, and_true]
  refine ⟨hatom _ (by decide), .list (by decide) ?_⟩
  simp only [List.forall_mem_cons, List.not_mem_nil, false_implies, implies_true, and_true]
  exact hatom _ (by decide)

end Scsh

end OsPlayground
