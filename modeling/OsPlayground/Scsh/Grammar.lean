import OsPlayground.Scsh.Print

/-!
# The grammar of `scsh.c`

* `Body`: the lines that are expressions with whitespace around them; `Line` has at most one.
* `body_head`: the first expression of a line and the rest.
* `skips_body`: the scan for the closing parenthesis passes over a line.
* **`body_of_matching`**: what stands before the parenthesis that the scan finds is a line, when no
  quote at the start of an expression stands alone.
-/

namespace OsPlayground

namespace Scsh

/-- The line `t` is the expressions `l`. Whitespace may stand before, between and after them, and an
atom goes up to a byte that ends it. -/
inductive Body : List ℕ → List Exp → Prop
  | nil : Body [] []
  | space {c : ℕ} {t : List ℕ} {l : List Exp} : isSpace c = true → Body t l → Body (c :: t) l
  | atom {w t : List ℕ} {l : List Exp} : AtomOk w → (∀ c ∈ t.head?, Break c) → Body t l →
    Body (w ++ t) (.atom w :: l)
  | list {u t : List ℕ} {m l : List Exp} (k : Kind) : Body u m → Body t l →
    Body (opening k ++ (u ++ 41 :: t)) (.list k m :: l)

/-- A line of the grammar: at most one expression, with at most `MAXARGS` elements in a list. -/
structure Line (s : List ℕ) (l : List Exp) : Prop where
  body : Body s l
  one : l.length ≤ 1
  ok : ∀ e ∈ l, e.Ok

/-- The text of an expression. -/
inductive Text : List ℕ → Exp → Prop
  | atom {w : List ℕ} : AtomOk w → Text w (.atom w)
  | list {u : List ℕ} {m : List Exp} (k : Kind) : Body u m →
    Text (opening k ++ (u ++ [41])) (.list k m)

/-- An atom ends where its line goes on. -/
def Exp.EndsAt (t : List ℕ) : Exp → Prop
  | .atom _ => ∀ c ∈ t.head?, Break c
  | .list _ _ => True

theorem body_head {t : List ℕ} {e : Exp} {l : List Exp} (h : Body t (e :: l)) :
    ∃ g w t', t = g ++ (w ++ t') ∧ (∀ c ∈ g, isSpace c = true) ∧ Text w e ∧ e.EndsAt t' ∧
      Body t' l := by
  generalize hm : e :: l = m at h
  induction h with
  | nil => cases hm
  | @space c t m hc _ ih =>
    obtain ⟨g, w, t', rfl, hg, hw, hend, hrest⟩ := ih hm
    exact ⟨c :: g, w, t', rfl, List.forall_mem_cons.mpr ⟨hc, hg⟩, hw, hend, hrest⟩
  | @atom w t m hw hend ht _ =>
    obtain ⟨rfl, rfl⟩ := List.cons.inj hm
    exact ⟨[], w, t, rfl, List.forall_mem_nil _, .atom hw, hend, ht⟩
  | @list u t m l' k hu ht _ _ =>
    obtain ⟨rfl, rfl⟩ := List.cons.inj hm
    refine ⟨[], opening k ++ (u ++ [41]), t, ?_, List.forall_mem_nil _, .list k hu, trivial, ht⟩
    simp

theorem body_nil {t : List ℕ} (h : Body t []) : ∀ c ∈ t, isSpace c = true := by
  generalize hm : ([] : List Exp) = m at h
  induction h with
  | nil => exact List.forall_mem_nil _
  | space hc _ ih => exact List.forall_mem_cons.mpr ⟨hc, ih hm⟩
  | atom => cases hm
  | list => cases hm

theorem body_spaces {t : List ℕ} (h : ∀ c ∈ t, isSpace c = true) : Body t [] := by
  induction t with
  | nil => exact .nil
  | cons c t ih =>
    exact .space (h c List.mem_cons_self) (ih fun d hd => h d (List.mem_cons_of_mem c hd))

theorem body_gap {g t : List ℕ} {l : List Exp} (hg : ∀ c ∈ g, isSpace c = true) (h : Body t l) :
    Body (g ++ t) l := by
  induction g with
  | nil => exact h
  | cons c g ih =>
    exact .space (hg c List.mem_cons_self) (ih fun d hd => hg d (List.mem_cons_of_mem c hd))

theorem Text.body {w t : List ℕ} {e : Exp} {l : List Exp} (hw : Text w e) (hend : e.EndsAt t)
    (h : Body t l) : Body (w ++ t) (e :: l) := by
  cases hw with
  | atom hw => exact .atom hw hend h
  | @list u m k hu =>
    have := Body.list k hu h
    rwa [List.append_assoc, List.append_assoc]

theorem Text.cons {w : List ℕ} {e : Exp} (h : Text w e) :
    ∃ c v, w = c :: v ∧ isSpace c = false ∧ c ≠ 41 ∧ c ≠ 0 := by
  cases h with
  | atom hw =>
    obtain ⟨c, v, rfl⟩ := List.exists_cons_of_ne_nil hw.ne_nil
    obtain ⟨h1, h2, h0⟩ := hw.not_break List.mem_cons_self
    exact ⟨c, v, rfl, h1, fun e => by simp [isSymbol, e] at h2, h0⟩
  | list k => cases k <;> exact ⟨_, _, rfl, rfl, by decide, by decide⟩

theorem skips_list {u : List ℕ} (hu : Skips u) (k : Kind) : Skips (opening k ++ (u ++ [41])) := by
  have hp := skips_paren hu
  cases k with
  | APPLY => exact hp
  | LIST =>
    have hq : Skips [39] := skips_single rfl
    have hl : Skips ([39] ++ 40 :: (u ++ [41])) := skips_append hq hp
    exact hl

theorem isSymbol_of_isSpace {c : ℕ} (h : isSpace c = true) : isSymbol c = false := by
  simp only [isSpace, List.mem_cons, List.not_mem_nil, or_false, decide_eq_true_eq] at h
  rcases h with rfl | rfl | rfl | rfl | rfl <;> rfl

/-- **The scan passes over a line.** -/
theorem skips_body {t : List ℕ} {l : List Exp} (h : Body t l) : Skips t := by
  induction h with
  | nil => exact skips_nil
  | space hc _ ih => exact skips_append (skips_single (isSymbol_of_isSpace hc)) ih
  | atom hw _ _ ih => exact skips_append (skips_of_forall fun c hc => (hw.not_break hc).2.1) ih
  | @list u t m l k _ _ ihu iht =>
    have := skips_append (skips_list ihu k) iht
    rwa [List.append_assoc, List.append_assoc] at this

/-! ## What the scan finds -/

/-- The `n` bytes at `p`. -/
def span (mem : ℕ → ℕ) : ℕ → ℕ → List ℕ
  | _, 0 => []
  | p, n + 1 => mem p :: span mem (p + 1) n

section Matching

variable {mem : ℕ → ℕ}

theorem length_span (n : ℕ) : ∀ p, (span mem p n).length = n := by
  induction n with
  | zero => exact fun _ => rfl
  | succ n ih => exact fun p => congrArg Nat.succ (ih (p + 1))

theorem at_span (n : ℕ) : ∀ p, At mem p (span mem p n) := by
  induction n with
  | zero => exact at_nil
  | succ n ih => exact fun p => at_cons.mpr ⟨rfl, ih (p + 1)⟩

theorem span_add (m n : ℕ) : ∀ p, span mem p (m + n) = span mem p m ++ span mem (p + m) n := by
  induction m with
  | zero => exact fun p => by rw [Nat.zero_add]; rfl
  | succ m ih =>
    intro p
    rw [Nat.succ_add_eq_add_succ m n, Nat.add_succ, span, ih, span, List.cons_append,
      Nat.add_right_comm, Nat.add_assoc p m 1]

theorem eq_span {w : List ℕ} : ∀ {p : ℕ}, At mem p w → w = span mem p w.length := by
  induction w with
  | nil => exact fun _ => rfl
  | cons c w ih =>
    intro p h
    obtain ⟨hc, hw⟩ := at_cons.mp h
    rw [List.length_cons, span, hc, ← ih hw]

theorem le_matching (k : ℕ) : ∀ i p, p ≤ matching mem k i p ∧ matching mem k i p ≤ p + k := by
  induction k with
  | zero => exact fun i p => ⟨le_refl p, le_refl p⟩
  | succ k ih =>
    intro i p
    have step : ∀ j, p ≤ matching mem k j (p + 1) ∧ matching mem k j (p + 1) ≤ p + (k + 1) :=
      fun j => by have := ih j (p + 1); omega
    rw [matching]
    split_ifs
    · exact step _
    · exact ⟨le_refl p, Nat.le_add_right p _⟩
    · exact step _
    · exact step _

theorem matching_found (k : ℕ) : ∀ i p, matching mem k i p < p + k →
    mem (matching mem k i p) = 41 := by
  induction k with
  | zero => exact fun i p h => absurd h (lt_irrefl p)
  | succ k ih =>
    intro i p h
    have step : ∀ j, matching mem k j (p + 1) < p + (k + 1) →
        mem (matching mem k j (p + 1)) = 41 := fun j hj => ih j (p + 1) (by omega)
    rw [matching] at h ⊢
    split_ifs with h1 h2 h3
    · exact step _ (by rwa [if_pos h1] at h)
    · exact h2
    · exact step _ (by rwa [if_neg h1, if_pos h2, if_neg h3] at h)
    · exact step _ (by rwa [if_neg h1, if_neg h2] at h)

theorem matching_self {k i p : ℕ} (h : matching mem k i p = p) (hk : 0 < k) : mem p ≠ 39 := by
  have hfound := matching_found k i p (by rw [h]; omega)
  rw [h] at hfound
  rw [hfound]
  decide

/-- A scan of two levels: first the inner one is closed, then the outer one. -/
theorem matching_add (k : ℕ) : ∀ i j p, matching mem k (i + 1 + (j + 1)) p < p + k →
    ∃ m < k, matching mem k (j + 1) p = p + m ∧
      matching mem (k - (m + 1)) (i + 1) (p + m + 1) = matching mem k (i + 1 + (j + 1)) p := by
  induction k with
  | zero => exact fun i j p h => absurd h (lt_irrefl p)
  | succ k ih =>
    intro i j p h
    have step : ∀ j', matching mem (k + 1) (i + 1 + (j + 1)) p =
        matching mem k (i + 1 + (j' + 1)) (p + 1) →
        matching mem (k + 1) (j + 1) p = matching mem k (j' + 1) (p + 1) →
        ∃ m < k + 1, matching mem (k + 1) (j + 1) p = p + m ∧
          matching mem (k + 1 - (m + 1)) (i + 1) (p + m + 1) =
            matching mem (k + 1) (i + 1 + (j + 1)) p := by
      intro j' hout hin
      rw [hout] at h
      obtain ⟨m, hm, h1, h2⟩ := ih i j' (p + 1) (by omega)
      refine ⟨m + 1, by omega, by rw [hin, h1]; omega, ?_⟩
      rw [hout, ← h2, show p + (m + 1) + 1 = p + 1 + m + 1 by omega,
        show k + 1 - (m + 1 + 1) = k - (m + 1) by omega]
    by_cases h40 : mem p = 40
    · refine step (j + 1) ?_ ?_
      · rw [matching, if_pos h40]
        congr 1
      · rw [matching, if_pos h40]
    by_cases h41 : mem p = 41
    · have hout : matching mem (k + 1) (i + 1 + (j + 1)) p = matching mem k (i + 1 + j) (p + 1) := by
        rw [matching, if_neg h40, if_pos h41, if_neg (by omega)]
        congr 1
      cases j with
      | zero =>
        refine ⟨0, Nat.succ_pos k, ?_, ?_⟩
        · rw [matching, if_neg h40, if_pos h41, if_pos rfl, Nat.add_zero]
        · rw [hout]
          rfl
      | succ j =>
        refine step j hout ?_
        rw [matching, if_neg h40, if_pos h41, if_neg (by omega)]
        congr 1
    · refine step j ?_ ?_
      · rw [matching, if_neg h40, if_neg h41]
      · rw [matching, if_neg h40, if_neg h41]

/-- An opening parenthesis, what is inside, and what is left up to the end of the scan. -/
theorem matching_open {k p n : ℕ} (h40 : mem p = 40) (h : matching mem k 1 p = p + n)
    (hn : n < k) : ∃ m n', n = m + n' + 2 ∧
      span mem p n = 40 :: (span mem (p + 1) m ++ 41 :: span mem (p + m + 2) n') ∧
      mem (p + m + 1) = 41 ∧
      (matching mem (k - 1) 1 (p + 1) = p + 1 + m ∧ m < k - 1) ∧
      matching mem (k - (m + 2)) 1 (p + m + 2) = p + m + 2 + n' ∧ n' < k - (m + 2) := by
  obtain ⟨k, rfl⟩ : ∃ j, k = j + 1 := ⟨k - 1, by omega⟩
  rw [matching, if_pos h40] at h
  have h : matching mem k (0 + 1 + (0 + 1)) (p + 1) = p + n := h
  obtain ⟨m, hm, hin, hout⟩ := matching_add k 0 0 (p + 1) (by rw [h]; omega)
  have hle : p + 1 + m + 1 ≤ matching mem (k - (m + 1)) (0 + 1) (p + 1 + m + 1) :=
    (le_matching _ _ _).1
  rw [hout, h] at hle
  obtain ⟨n', rfl⟩ : ∃ j, n = m + j + 2 := ⟨n - m - 2, by omega⟩
  have h41 : mem (p + m + 1) = 41 := by
    have := matching_found k 1 (p + 1) (by rw [hin]; omega)
    rwa [hin, Nat.add_right_comm] at this
  refine ⟨m, n', rfl, ?_, h41, ⟨hin, hm⟩, ?_, by omega⟩
  · rw [show m + n' + 2 = m + (n' + 1) + 1 by omega, span, span_add, span, h40, Nat.add_right_comm p 1 m,
      h41]
  · rw [show p + m + 2 = p + 1 + m + 1 by omega, show k + 1 - (m + 2) = k - (m + 1) by omega]
    exact hout.trans (h.trans (by omega))

theorem exists_run (n : ℕ) : ∀ p, ∃ a ≤ n, (∀ c ∈ span mem p a, ¬ Break c) ∧
    (a = n ∨ Break (mem (p + a))) := by
  induction n with
  | zero => exact fun p => ⟨0, le_refl 0, List.forall_mem_nil _, .inl rfl⟩
  | succ n ih =>
    intro p
    by_cases h : Break (mem p)
    · exact ⟨0, Nat.zero_le _, List.forall_mem_nil _, .inr h⟩
    · obtain ⟨a, ha, hw, hend⟩ := ih (p + 1)
      refine ⟨a + 1, Nat.succ_le_succ ha, List.forall_mem_cons.mpr ⟨h, hw⟩, ?_⟩
      rw [show p + (a + 1) = p + 1 + a by omega]
      exact hend.imp (congrArg Nat.succ) id

theorem matching_other {k i p : ℕ} (h : isSymbol (mem p) = false) :
    matching mem (k + 1) i p = matching mem k i (p + 1) := by
  have h40 : mem p ≠ 40 := fun e => by simp [isSymbol, e] at h
  have h41 : mem p ≠ 41 := fun e => by simp [isSymbol, e] at h
  rw [matching, if_neg h40, if_neg h41]

/-- **What stands before the parenthesis that the scan finds is a line.** A quote after whitespace
or a parenthesis, or at the place itself, has its parenthesis after it. -/
theorem body_of_matching {N r : ℕ} (hnul : ∀ x < N, mem x ≠ 0)
    (hq : ∀ i, i + 1 < r → isSpace (mem i) = true ∨ isSymbol (mem i) = true → mem (i + 1) = 39 →
      mem (i + 2) = 40) (n : ℕ) :
    ∀ {k p : ℕ}, p + k ≤ N → p + n ≤ r → (mem p = 39 → mem (p + 1) = 40) →
      matching mem k 1 p = p + n → n < k → ∃ l, Body (span mem p n) l := by
  induction n using Nat.strong_induction_on with
  | _ n ih =>
    intro k p hN hr hp h hn
    -- a list, from its parenthesis on
    have list : ∀ {k p n' : ℕ}, n' ≤ n → p + k ≤ N → p + n' ≤ r → mem p = 40 →
        matching mem k 1 p = p + n' → n' < k →
        ∃ u t m l, span mem p n' = 40 :: (u ++ 41 :: t) ∧ Body u m ∧ Body t l := by
      intro k p n' hle hN hr h40 h hn
      obtain ⟨m, j, rfl, hspan, h41, ⟨hin, hm⟩, hout, hj⟩ := matching_open h40 h hn
      have hsym : isSpace (mem p) = true ∨ isSymbol (mem p) = true := .inr (by rw [h40]; rfl)
      have hsym' : isSpace (mem (p + m + 1)) = true ∨ isSymbol (mem (p + m + 1)) = true :=
        .inr (by rw [h41]; rfl)
      obtain ⟨l₁, hl₁⟩ := ih m (by omega) (by omega) (by omega) (hq p (by omega) hsym) hin hm
      have hq₂ : mem (p + m + 2) = 39 → mem (p + m + 2 + 1) = 40 := by
        by_cases hend : j = 0
        · exact fun he => absurd he (matching_self (by rw [hout, hend, Nat.add_zero]) (by omega))
        · exact hq _ (by omega) hsym'
      obtain ⟨l₂, hl₂⟩ := ih j (by omega) (by omega) (by omega) hq₂ hout hj
      exact ⟨_, _, l₁, l₂, hspan, hl₁, hl₂⟩
    cases n with
    | zero => exact ⟨[], .nil⟩
    | succ n =>
      obtain ⟨k, rfl⟩ : ∃ j, k = j + 1 := ⟨k - 1, by omega⟩
      by_cases h40 : mem p = 40
      · obtain ⟨u, t, m, l, hspan, hu, ht⟩ := list (le_refl _) hN hr h40 h hn
        rw [hspan]
        exact ⟨_, .list .APPLY hu ht⟩
      by_cases h39 : mem p = 39
      · rw [matching_other (by rw [h39]; rfl)] at h
        obtain ⟨u, t, m, l, hspan, hu, ht⟩ := list (Nat.le_succ n) (by omega) (by omega) (hp h39)
          (h.trans (by omega)) (Nat.lt_of_succ_lt_succ hn)
        rw [span, hspan, h39]
        exact ⟨_, .list .LIST hu ht⟩
      by_cases h41 : mem p = 41
      · rw [matching, if_neg h40, if_pos h41, if_pos rfl] at h
        omega
      by_cases hsp : isSpace (mem p) = true
      · rw [matching_other (isSymbol_of_isSpace hsp)] at h
        have hq₁ : mem (p + 1) = 39 → mem (p + 1 + 1) = 40 := by
          by_cases hend : n = 0
          · exact fun he => absurd he (matching_self (by rw [h, hend]) (by omega))
          · exact hq p (by omega) (.inl hsp)
        obtain ⟨l, hl⟩ := ih n (Nat.lt_succ_self n) (by omega) (by omega) hq₁
          (h.trans (by omega)) (Nat.lt_of_succ_lt_succ hn)
        exact ⟨l, .space hsp hl⟩
      · -- an atom
        have hnb : ¬ Break (mem p) := by
          rintro (h | h | h)
          · exact hsp h
          · simp [isSymbol, h40, h41] at h
          · exact hnul p (by omega) h
        obtain ⟨a, ha, hw, hend⟩ : ∃ a ≤ n + 1, (∀ c ∈ span mem p a, ¬ Break c) ∧
            (a = n + 1 ∨ Break (mem (p + a))) := exists_run (n + 1) p
        obtain ⟨a, rfl⟩ : ∃ j, a = j + 1 := by
          cases a with
          | zero => exact absurd (hend.resolve_left (Nat.succ_ne_zero n).symm) hnb
          | succ a => exact ⟨a, rfl⟩
        have hskip := skips_of_forall (fun c hc => by simpa using fun h => hw c hc (.inr (.inl h)))
          mem p (k - a) 0 (at_span (a + 1) p)
        rw [length_span, show a + 1 + (k - a) = k + 1 by omega] at hskip
        have h41' : mem (p + (n + 1)) = 41 := h ▸ matching_found (k + 1) 1 p (by omega)
        have hne : mem (p + (a + 1)) ≠ 39 := by
          rcases hend with heq | hbr
          · rw [heq, h41']
            decide
          · intro he
            rw [he] at hbr
            exact absurd hbr (by simp [Break, isSpace, isSymbol])
        obtain ⟨l, hl⟩ := ih (n - a) (by omega) (k := k - a) (p := p + (a + 1)) (by omega)
          (by omega) (fun he => absurd he hne) (hskip.symm.trans (h.trans (by omega))) (by omega)
        have hsplit : span mem p (n + 1) = span mem p (a + 1) ++ span mem (p + (a + 1)) (n - a) := by
          rw [← span_add]
          congr 1
          omega
        rw [hsplit]
        refine ⟨_, .atom ⟨List.cons_ne_nil _ _, hw, fun he => h39 (Option.some.inj he)⟩ ?_ hl⟩
        intro c hc
        cases hr : n - a with
        | zero =>
          rw [hr] at hc
          cases hc
        | succ r =>
          rw [hr] at hc
          obtain rfl : mem (p + (a + 1)) = c := Option.some.inj hc
          exact hend.resolve_left (by omega)

end Matching

end Scsh

end OsPlayground
