import OsPlayground.Sh.Print

/-!
# The tokens of a line

* `Reads`: a string between two pointers, up to a byte that ends a word.
* `Lexes`: the tokens that are left at `s`; **`lexes_spells`**: a line has the tokens that it
  spells.
* `peek_lexes`, `gettoken_nil`, `gettoken_symbol`, `gettoken_word`: what the parser is told of them.
-/

namespace OsPlayground

namespace Sh

open Scsh (skip skipWs isSpace At at_cons at_append le_skip skip_at skip_end skip_stop)

section Skip

variable {mem : ℕ → ℕ}

theorem skipWs_skipWs (s es : ℕ) : skipWs mem (skipWs mem s es) es = skipWs mem s es := by
  have hend : skipWs mem s es = s + (es - s) ∨ isSpace (mem (skipWs mem s es)) = false :=
    skip_end isSpace (es - s) s
  rcases hend with h | h
  · have hk : es - skipWs mem s es = 0 ∨ es - s = 0 := by omega
    rcases hk with hk | hk
    · rw [skipWs, hk, skip]
    · have h0 : skipWs mem s es = s := by rw [skipWs, hk, skip]
      rw [h0, h0]
  · exact skip_stop h _

theorem skipWs_space {s es : ℕ} (h : isSpace (mem s) = true) (hs : s < es) :
    skipWs mem s es = skipWs mem (s + 1) es := by
  have hk : es - s = es - (s + 1) + 1 := by omega
  rw [skipWs, hk, skip, if_pos h, skipWs]

end Skip

/-! ## Bytes -/

theorem isSpace_of_isSymbol {c : ℕ} (h : isSymbol c = true) : isSpace c = false := by
  simp only [isSymbol, List.mem_cons, List.not_mem_nil, or_false, decide_eq_true_eq] at h
  rcases h with rfl | rfl | rfl | rfl | rfl | rfl | rfl <;> rfl

theorem ne_zero_of_isSymbol {c : ℕ} (h : isSymbol c = true) : c ≠ 0 := by
  rintro rfl
  exact absurd h (by decide)

theorem not_isBreak {c : ℕ} (h : isBreak c = false) :
    isSpace c = false ∧ isSymbol c = false ∧ c ≠ 0 := by
  rw [isBreak, isDelim, Bool.or_eq_false_iff, Bool.or_eq_false_iff] at h
  exact ⟨h.1.1, h.1.2, by simpa using h.2⟩

section Lexes

variable {mem : ℕ → ℕ} {es : ℕ}

/-- The word `w` stands between `q` and `eq`, where it ends. -/
structure Reads (mem : ℕ → ℕ) (q eq : ℕ) (w : List ℕ) : Prop where
  bytes : At mem q w
  eq_end : eq = q + w.length
  ok : WordOk w
  stop : isBreak (mem eq) = true

/-- The tokens from `s` on, up to the NUL at `es`. -/
def Lexes (mem : ℕ → ℕ) (es : ℕ) : List Tok → ℕ → Prop
  | [], s => skipWs mem s es = es ∧ mem es = 0
  | .symbol c :: ts, s =>
    let q := skipWs mem s es
    q < es ∧ mem q = c ∧ isSymbol c = true ∧ (c = 62 → mem (q + 1) ≠ 62) ∧ Lexes mem es ts (q + 1)
  | .word w :: ts, s =>
    let q := skipWs mem s es
    q + w.length ≤ es ∧ Reads mem q (q + w.length) w ∧
      (q + w.length = es ∨ isDelim (mem (q + w.length)) = true) ∧ Lexes mem es ts (q + w.length)

theorem lexes_congr {ts : List Tok} {s s' : ℕ} (h : skipWs mem s es = skipWs mem s' es)
    (hl : Lexes mem es ts s) : Lexes mem es ts s' := by
  cases ts with
  | nil => rwa [Lexes, ← h]
  | cons a ts => cases a <;> rwa [Lexes, ← h]

theorem Lexes.skipWs {ts : List Tok} {s : ℕ} (h : Lexes mem es ts s) :
    Lexes mem es ts (skipWs mem s es) :=
  lexes_congr (skipWs_skipWs s es).symm h

/-- **A line has the tokens that it spells.** -/
theorem lexes_spells {ts : List Tok} {t : List ℕ} (h : Spells ts t) : ∀ {s : ℕ}, At mem s t →
    s + t.length = es → mem es = 0 → Lexes mem es ts s := by
  induction h with
  | nil =>
    intro s _ hs h0
    have hs : s = es := hs
    subst hs
    exact ⟨skip_stop (by rw [h0]; rfl) _, h0⟩
  | space hc _ ih =>
    intro s hat hs h0
    obtain ⟨hm, hat⟩ := at_cons.mp hat
    rw [List.length_cons] at hs
    have hsp : skipWs mem s es = skipWs mem (s + 1) es :=
      skipWs_space (by rw [hm, hc]) (by omega)
    exact lexes_congr hsp.symm (ih hat (by omega) h0)
  | @symbol c ts t hc hne _ ih =>
    intro s hat hs h0
    obtain ⟨hm, hat⟩ := at_cons.mp hat
    rw [List.length_cons] at hs
    have hskip : skipWs mem s es = s := skip_stop (by rw [hm, isSpace_of_isSymbol hc]) _
    rw [Lexes, hskip]
    refine ⟨by omega, hm, hc, fun h62 hmem => ?_, ih hat (by omega) h0⟩
    cases t with
    | nil =>
      have : s + 1 = es := hs
      rw [this, h0] at hmem
      exact absurd hmem (by decide)
    | cons d t =>
      rw [(at_cons.mp hat).1] at hmem
      exact hne h62 (congrArg some hmem)
  | @word w ts t hw hbr _ ih =>
    intro s hat hs h0
    obtain ⟨hatw, hrest⟩ := at_append.mp hat
    rw [List.length_append] at hs
    have hskip : skipWs mem s es = s := by
      obtain ⟨c, v, rfl, hc⟩ := hw.cons
      exact skip_stop (by rw [(at_cons.mp hatw).1, (not_isBreak hc).1]) _
    have hl := ih hrest (by omega) h0
    rw [Lexes, hskip]
    cases t with
    | nil =>
      have hes : s + w.length = es := by simpa using hs
      exact ⟨hes.le, ⟨hatw, rfl, hw, by rw [hes, h0]; rfl⟩, .inl hes, hl⟩
    | cons d t =>
      have hd : isDelim (mem (s + w.length)) = true := by
        rw [(at_cons.mp hrest).1]
        exact hbr d rfl
      exact ⟨by omega, ⟨hatw, rfl, hw, by rw [isBreak, hd, Bool.true_or]⟩, .inr hd, hl⟩

theorem spells_ne_zero {ts : List Tok} {t : List ℕ} (h : Spells ts t) : ∀ c ∈ t, c ≠ 0 := by
  induction h with
  | nil => exact fun c hc => absurd hc List.not_mem_nil
  | space hc _ ih =>
    refine List.forall_mem_cons.mpr ⟨?_, ih⟩
    rintro rfl
    exact absurd hc (by decide)
  | symbol hc _ _ ih => exact List.forall_mem_cons.mpr ⟨ne_zero_of_isSymbol hc, ih⟩
  | word hw _ _ ih =>
    exact List.forall_mem_append.mpr ⟨fun c hc => (not_isBreak (hw.chars c hc)).2.2, ih⟩

theorem length_lexes {ts : List Tok} : ∀ {s : ℕ}, Lexes mem es ts s → ts.length ≤ es - s := by
  induction ts with
  | nil => exact fun _ => Nat.zero_le _
  | cons a ts ih =>
    intro s h
    have hs : s ≤ Scsh.skipWs mem s es := le_skip _ _ _
    cases a with
    | symbol c =>
      have := ih h.2.2.2.2
      have := h.1
      rw [List.length_cons]
      omega
    | word w =>
      have := ih h.2.2.2
      have := h.1
      have := List.length_pos_iff.mpr h.2.1.ok.ne_nil
      rw [List.length_cons]
      omega

/-! ## What the parser is told -/

/-- The next token is one of the symbols. -/
def starts (toks : List ℕ) : List Tok → Bool
  | .symbol c :: _ => toks.contains c
  | _ => false

theorem peek_lexes {ts : List Tok} {s : ℕ} (h : Lexes mem es ts s) {toks : List ℕ}
    (htoks : ∀ c ∈ toks, isSymbol c = true) :
    peek mem es s toks = (starts toks ts, Scsh.skipWs mem s es) := by
  rw [peek, Prod.mk.injEq, and_iff_left rfl]
  cases ts with
  | nil =>
    rw [h.1, h.2]
    rfl
  | cons a ts =>
    cases a with
    | symbol c =>
      rw [h.2.1, starts, bne_iff_ne.mpr (ne_zero_of_isSymbol h.2.2.1), Bool.true_and]
    | word w =>
      obtain ⟨c, v, rfl, hc⟩ := h.2.1.ok.cons
      have hm := (at_cons.mp h.2.1.bytes).1
      have hnot : c ∉ toks := fun hmem =>
        absurd (htoks c hmem) (by rw [(not_isBreak hc).2.1]; decide)
      have hst : starts toks (.word (c :: v) :: ts) = false := rfl
      rw [hm, hst, List.contains_eq_mem, decide_eq_false hnot, Bool.and_false]

theorem gettoken_nil {s : ℕ} (h : Lexes mem es [] s) :
    (gettoken mem es s).ret = 0 ∧ Lexes mem es [] (gettoken mem es s).ps := by
  have hscan : scan mem es (Scsh.skipWs mem s es) = (0, es) := by rw [h.1, scan, if_pos h.2]
  refine ⟨by rw [gettoken, hscan], ?_⟩
  rw [gettoken, hscan]
  refine (show Lexes mem es [] es from ⟨?_, h.2⟩).skipWs
  exact skip_stop (by rw [h.2]; rfl) _

theorem gettoken_symbol {c s : ℕ} {ts : List Tok} (h : Lexes mem es (.symbol c :: ts) s) :
    (gettoken mem es s).ret = c ∧ Lexes mem es ts (gettoken mem es s).ps := by
  obtain ⟨-, hm, hc, hne, hl⟩ := h
  have hscan : scan mem es (Scsh.skipWs mem s es) = (c, Scsh.skipWs mem s es + 1) := by
    rw [scan, hm, if_neg (ne_zero_of_isSymbol hc)]
    by_cases h62 : c = 62
    · rw [if_neg (by rw [h62]; decide), if_pos h62, if_neg (hne h62), h62]
    · rw [if_pos]
      simp only [isSymbol, List.mem_cons, List.not_mem_nil, or_false, decide_eq_true_eq] at hc ⊢
      omega
  refine ⟨by rw [gettoken, hscan], ?_⟩
  rw [gettoken, hscan]
  exact hl.skipWs

theorem gettoken_word {w : List ℕ} {s : ℕ} {ts : List Tok} (h : Lexes mem es (.word w :: ts) s) :
    (gettoken mem es s).ret = 97 ∧ Reads mem (gettoken mem es s).q (gettoken mem es s).eq w ∧
      Lexes mem es ts (gettoken mem es s).ps := by
  obtain ⟨hle, hr, hend, hl⟩ := h
  have hscan : scan mem es (Scsh.skipWs mem s es) =
      (97, Scsh.skipWs mem s es + w.length) := by
    obtain ⟨c, v, rfl, hc⟩ := hr.ok.cons
    obtain ⟨-, hsym, h0⟩ := not_isBreak hc
    have hskip := skip_at (p := fun c => !isSpace c && !isSymbol c) hr.bytes
      (k := es - Scsh.skipWs mem s es) (fun d hd => ?_) (by omega) ?_
    · rw [scan, (at_cons.mp hr.bytes).1, if_neg h0, if_neg, if_neg, hskip]
      · rintro rfl
        exact absurd hsym (by decide)
      · intro hmem
        simp only [isSymbol, List.mem_cons, List.not_mem_nil, or_false, decide_eq_false_iff_not]
          at hsym hmem
        omega
    · obtain ⟨h1, h2, -⟩ := not_isBreak (hr.ok.chars d hd)
      simp [h1, h2]
    · refine hend.imp (fun h => by omega) fun h => ?_
      rw [← Bool.not_or, ← isDelim, h]
      rfl
  refine ⟨by rw [gettoken, hscan], ?_, ?_⟩
  · rw [gettoken, hscan]
    exact hr
  · rw [gettoken, hscan]
    exact hl.skipWs

end Lexes

end Sh

end OsPlayground
