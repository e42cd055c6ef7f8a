import OsPlayground.Sh.Lex
import Mathlib.Data.List.Forall2

/-!
# The parser on a printed command

* `Shape`: the tree has the shape of a command, with the strings related by `R`.
* `Gets`: a call of the parser gets a command and leaves the tokens after it.
* `parseredirs_gets`, `execargs_gets`; `parseexec_paren`; `parsepipe_pipe`, `parseline_list`,
  `parseline_back`: what each function gets.
* **`parses_prints`**: `parseline` gets a printed command.
-/

namespace OsPlayground

namespace Sh

open Scsh (skipWs)

/-! ## Trees -/

/-- The tree has the shape, the modes and the descriptors of the command, and `R q eq w` holds of
every string between `q` and `eq` and the word that it stands for. -/
inductive Shape (R : ℕ → ℕ → List ℕ → Prop) : Cmd → Tree → Prop
  | exec {argv : List (ℕ × ℕ)} {ws : List (List ℕ)} :
    List.Forall₂ (fun a w => R a.1 a.2 w) argv ws → Shape R (.EXEC argv) (.exec ws)
  | redir {c : Cmd} {t : Tree} {q eq : ℕ} {d : Dir} {w : List ℕ} : Shape R c t → R q eq w →
    Shape R (.REDIR c q eq d.mode d.fd) (.redir t d w)
  | pipe {c d : Cmd} {t u : Tree} : Shape R c t → Shape R d u → Shape R (.PIPE c d) (.pipe t u)
  | list {c d : Cmd} {t u : Tree} : Shape R c t → Shape R d u → Shape R (.LIST c d) (.list t u)
  | back {c : Cmd} {t : Tree} : Shape R c t → Shape R (.BACK c) (.back t)

namespace Shape

variable {R S : ℕ → ℕ → List ℕ → Prop}

theorem mono (hRS : ∀ q eq w, R q eq w → S q eq w) {c : Cmd} {t : Tree} (h : Shape R c t) :
    Shape S c t := by
  induction h with
  | exec h => exact .exec (h.imp fun _ _ hw => hRS _ _ _ hw)
  | redir _ hw ih => exact .redir ih (hRS _ _ _ hw)
  | pipe _ _ hl hr => exact .pipe hl hr
  | list _ _ hl hr => exact .list hl hr
  | back _ ih => exact .back ih

theorem push {c : Cmd} {t : Tree} (h : Shape R c t) {q eq : ℕ} {w : List ℕ} (hw : R q eq w) :
    Shape R (c.push q eq) (t.push w) := by
  induction h with
  | exec h => exact .exec (List.rel_append h (.cons hw .nil))
  | redir _ hf ih => exact .redir ih hf
  | pipe hl hr _ _ => exact .pipe hl hr
  | list hl hr _ _ => exact .list hl hr
  | back h _ => exact .back h

theorem redircmd {c : Cmd} {t : Tree} (h : Shape R c t) {q eq : ℕ} {w : List ℕ} (hw : R q eq w)
    (dir : Dir) : Shape R (redircmd dir.symbol c q eq) (.redir t dir w) := by
  cases dir
  · exact redir (d := .input) h hw
  · exact redir (d := .output) h hw

end Shape

section Gets

variable {mem : ℕ → ℕ} {es : ℕ}

/-- The call gets the command `t` and leaves the tokens `rest`. -/
def Gets (mem : ℕ → ℕ) (es : ℕ) (r : Except Stop (Cmd × ℕ)) (t : Tree) (rest : List Tok) : Prop :=
  ∃ c s, r = .ok (c, s) ∧ Shape (Reads mem) c t ∧ Lexes mem es rest s

/-- What comes after a command: the end of the line, or of a block. -/
def Follow : List Tok → Prop
  | [] => True
  | .symbol c :: _ => c = 41
  | .word _ :: _ => False

theorem Follow.starts {rest : List Tok} (h : Follow rest) {toks : List ℕ} (h41 : 41 ∉ toks) :
    starts toks rest = false := by
  cases rest with
  | nil => rfl
  | cons a rest =>
    cases a with
    | symbol c =>
      obtain rfl : c = 41 := h
      rw [Sh.starts, List.contains_eq_mem, decide_eq_false h41]
    | word w => exact absurd h id

/-! ## Redirections -/

theorem starts_redirToks {toks : List ℕ} (h : ∀ c ∈ [60, 62], c ∉ toks) {rest : List Tok}
    (hrest : starts toks rest = false) (rs : List Redir) :
    starts toks (redirToks rs ++ rest) = false := by
  cases rs with
  | nil => exact hrest
  | cons r rs =>
    have hr : r.dir.symbol ∉ toks := h _ (by cases r.dir <;> decide)
    have hst : starts toks (redirToks (r :: rs) ++ rest) = toks.contains r.dir.symbol := rfl
    rw [hst, List.contains_eq_mem, decide_eq_false hr]

theorem length_redirToks (rs : List Redir) : (redirToks rs).length = 2 * rs.length := by
  induction rs with
  | nil => rfl
  | cons r rs ih =>
    have hr : (redirToks (r :: rs)).length = (redirToks rs).length + 2 := rfl
    rw [hr, ih, List.length_cons, Nat.mul_succ]

theorem length_argToks (l : List (List ℕ × List Redir)) : l.length ≤ (argToks l).length := by
  induction l with
  | nil => exact le_refl 0
  | cons a l ih =>
    have ha : (argToks (a :: l)).length = (redirToks a.2 ++ argToks l).length + 1 := rfl
    rw [ha, List.length_append, List.length_cons]
    omega

theorem length_paren (ts : List Tok) : (paren ts).length = ts.length + 2 := by
  rw [paren, List.length_cons, List.length_append, List.length_singleton]

theorem parseredirs_gets {rest : List Tok} (hrest : starts [60, 62] rest = false) :
    ∀ {rs : List Redir} {k s : ℕ} {c : Cmd} {t : Tree}, rs.length < k → Shape (Reads mem) c t →
      Lexes mem es (redirToks rs ++ rest) s →
      Gets mem es (parseredirs mem es k c s) (wrap t rs) rest := by
  intro rs
  induction rs with
  | nil =>
    intro k s c t hk hc hl
    obtain ⟨k, rfl⟩ : ∃ j, k = j + 1 := ⟨k - 1, by omega⟩
    have hl : Lexes mem es rest s := hl
    refine ⟨c, skipWs mem s es, ?_, hc, hl.skipWs⟩
    rw [parseredirs, peek_lexes hl (by decide), hrest]
  | cons r rs ih =>
    intro k s c t hk hc hl
    obtain ⟨k, rfl⟩ : ∃ j, k = j + 1 := ⟨k - 1, by omega⟩
    have hl : Lexes mem es (.symbol r.dir.symbol :: .word r.file :: (redirToks rs ++ rest)) s := hl
    have hstart : starts [60, 62] (.symbol r.dir.symbol :: .word r.file ::
        (redirToks rs ++ rest)) = true := by cases r.dir <;> rfl
    obtain ⟨hret, hl1⟩ := gettoken_symbol hl.skipWs
    obtain ⟨hret', hfile, hl2⟩ := gettoken_word hl1
    have hk : rs.length < k := Nat.lt_of_succ_lt_succ hk
    have := ih hk (hc.redircmd hfile r.dir) hl2
    rw [parseredirs, peek_lexes hl (by decide), hstart]
    simp only [hret', ne_eq, not_true_eq_false, if_false, hret]
    exact this

/-! ## Words -/

/-- The loop gets the words and the redirections up to a follower. -/
theorem execargs_gets {rest : List Tok} (hrest : Follow rest) :
    ∀ {l : List (List ℕ × List Redir)} {rs : List Redir} {k argc s : ℕ} {c : Cmd} {t : Tree},
      l.length < k → argc + l.length < MAXARGS → Shape (Reads mem) c t →
      Lexes mem es (redirToks rs ++ (argToks l ++ rest)) s →
      Gets mem es (execargs mem es k c argc s) (fill (wrap t rs) l) rest := by
  intro l
  induction l with
  | nil =>
    intro rs k argc s c t hk _ hc hl
    obtain ⟨k, rfl⟩ : ∃ j, k = j + 1 := ⟨k - 1, by omega⟩
    have hl : Lexes mem es (redirToks rs ++ rest) s := hl
    have hlen := length_lexes hl
    rw [List.length_append, length_redirToks] at hlen
    obtain ⟨c', s', he, hc', hl'⟩ := parseredirs_gets (hrest.starts (by decide))
      (k := es - s + 1) (by omega) hc hl
    rw [execargs, he]
    simp only [bind, Except.bind]
    rw [peek_lexes hl' (by decide)]
    cases rest with
    | nil =>
      obtain ⟨hret, hl''⟩ := gettoken_nil hl'.skipWs
      have hst : starts [124, 41, 38, 59] [] = false := rfl
      simp only [hst, hret, if_true]
      exact ⟨c', _, rfl, hc', hl''⟩
    | cons a rest =>
      cases a with
      | symbol d =>
        have hst : starts [124, 41, 38, 59] (.symbol d :: rest) = true := by
          rw [show d = 41 from hrest]
          rfl
        simp only [hst]
        exact ⟨c', _, rfl, hc', hl'.skipWs⟩
      | word w => exact absurd hrest id
  | cons a l ih =>
    intro rs k argc s c t hk hargc hc hl
    obtain ⟨k, rfl⟩ : ∃ j, k = j + 1 := ⟨k - 1, by omega⟩
    have hl : Lexes mem es (redirToks rs ++ (.word a.1 ::
        (redirToks a.2 ++ (argToks l ++ rest)))) s := by
      simpa [argToks] using hl
    have hlen := length_lexes hl
    rw [List.length_append, length_redirToks] at hlen
    obtain ⟨c', s', he, hc', hl'⟩ := parseredirs_gets rfl (k := es - s + 1) (by omega) hc hl
    obtain ⟨hret, hw, hl''⟩ := gettoken_word hl'.skipWs
    rw [List.length_cons] at hk hargc
    have hroom : argc + 1 + l.length < MAXARGS := by omega
    have := ih (k := k) (by omega) hroom (hc'.push hw) hl''
    have hst : starts [124, 41, 38, 59] (.word a.1 :: (redirToks a.2 ++ (argToks l ++ rest))) =
        false := rfl
    have hge : ¬ argc + 1 ≥ MAXARGS := by omega
    rw [execargs, he]
    simp only [bind, Except.bind]
    rw [peek_lexes hl' (by decide), hst]
    simp only [hret, if_neg hge, ne_eq, not_true_eq_false, if_false, Nat.succ_ne_zero]
    exact this

/-! ## The functions -/

theorem parseexec_simple {rest : List Tok} (hrest : Follow rest) {rs : List Redir}
    {l : List (List ℕ × List Redir)} (hargc : l.length < MAXARGS) {k s : ℕ}
    (hl : Lexes mem es (redirToks rs ++ (argToks l ++ rest)) s) :
    Gets mem es (parseexec mem es (k + 1) s) (fill (wrap (.exec []) rs) l) rest := by
  have hst : starts [40] (redirToks rs ++ (argToks l ++ rest)) = false := by
    refine starts_redirToks (by decide) ?_ rs
    cases l with
    | nil => exact hrest.starts (by decide)
    | cons a l => rfl
  have hlen := length_lexes hl.skipWs
  have hle := length_argToks l
  rw [List.length_append, List.length_append] at hlen
  rw [parseexec, peek_lexes hl (by decide), hst]
  exact execargs_gets hrest (by omega) (by omega) (.exec .nil) hl.skipWs

/-- `parseline` gets the command that the tokens write down. -/
def Parses (mem : ℕ → ℕ) (es : ℕ) (t : Tree) (ts : List Tok) : Prop :=
  ∀ k s rest, 4 * ts.length + 4 ≤ k → Follow rest → Lexes mem es (ts ++ rest) s →
    Gets mem es (parseline mem es k s) t rest

/-- A command in parentheses, with the redirections after it. -/
theorem parseexec_paren {t : Tree} {ts rest : List Tok} (ht : Parses mem es t ts)
    {rs : List Redir} (hrest : starts [60, 62] rest = false) {k s : ℕ} (hk : 4 * ts.length + 6 ≤ k)
    (hl : Lexes mem es (paren ts ++ (redirToks rs ++ rest)) s) :
    Gets mem es (parseexec mem es k s) (wrap t rs) rest := by
  obtain ⟨k, rfl⟩ : ∃ j, k = j + 2 := ⟨k - 2, by omega⟩
  have hl : Lexes mem es (.symbol 40 :: (ts ++ (.symbol 41 :: (redirToks rs ++ rest)))) s := by
    simpa [paren] using hl
  have hopen : starts [40] (.symbol 40 :: (ts ++ (.symbol 41 :: (redirToks rs ++ rest)))) = true :=
    rfl
  have hclose : starts [41] (.symbol 41 :: (redirToks rs ++ rest)) = true := rfl
  obtain ⟨-, hl1⟩ := gettoken_symbol hl.skipWs.skipWs
  obtain ⟨c, s1, he, hc, hl2⟩ := ht k _ (.symbol 41 :: _) (by omega) rfl hl1
  obtain ⟨-, hl3⟩ := gettoken_symbol hl2.skipWs
  have hlen := length_lexes hl3
  rw [List.length_append, length_redirToks] at hlen
  have := parseredirs_gets hrest (k := es - (gettoken mem es (skipWs mem s1 es)).ps + 1) (by omega)
    hc hl3
  rw [parseexec, peek_lexes hl (by decide), hopen]
  simp only [parseblock]
  rw [peek_lexes hl.skipWs (by decide), hopen]
  simp only [he, bind, Except.bind]
  rw [peek_lexes hl2 (by decide), hclose]
  exact this

theorem parseexec_block {t : Tree} {ts rest : List Tok} (ht : Parses mem es t ts)
    (hrest : starts [60, 62] rest = false) {k s : ℕ} (hk : 4 * ts.length + 6 ≤ k)
    (hl : Lexes mem es (paren ts ++ rest) s) : Gets mem es (parseexec mem es k s) t rest := by
  have hl : Lexes mem es (paren ts ++ (redirToks [] ++ rest)) s := hl
  exact parseexec_paren ht hrest hk hl

theorem parsepipe_of {t : Tree} {rest : List Tok} {k s : ℕ}
    (h : Gets mem es (parseexec mem es k s) t rest) (hrest : starts [124] rest = false) :
    Gets mem es (parsepipe mem es (k + 1) s) t rest := by
  obtain ⟨c, s1, he, hc, hl⟩ := h
  refine ⟨c, skipWs mem s1 es, ?_, hc, hl.skipWs⟩
  rw [parsepipe, he]
  simp only [bind, Except.bind]
  rw [peek_lexes hl (by decide), hrest]

theorem parsepipe_pipe {t u : Tree} {us rest : List Tok} {k s : ℕ}
    (h : Gets mem es (parseexec mem es k s) t (.symbol 124 :: us))
    (hu : ∀ s, Lexes mem es us s → Gets mem es (parsepipe mem es k s) u rest) :
    Gets mem es (parsepipe mem es (k + 1) s) (.pipe t u) rest := by
  obtain ⟨c, s1, he, hc, hl⟩ := h
  have hst : starts [124] (.symbol 124 :: us) = true := rfl
  obtain ⟨d, s2, he2, hd, hl2⟩ := hu _ (gettoken_symbol hl.skipWs).2
  refine ⟨.PIPE c d, s2, ?_, hc.pipe hd, hl2⟩
  rw [parsepipe, he]
  simp only [bind, Except.bind]
  rw [peek_lexes hl (by decide), hst]
  simp only [he2, pure, Except.pure]

theorem backs_stop {rest : List Tok} {s : ℕ} (hl : Lexes mem es rest s)
    (hrest : starts [38] rest = false) (k : ℕ) (c : Cmd) :
    backs mem es (k + 1) c s = (c, skipWs mem s es) := by
  rw [backs, peek_lexes hl (by decide), hrest]

theorem parseline_of {t : Tree} {rest : List Tok} {k s : ℕ}
    (h : Gets mem es (parsepipe mem es k s) t rest) (hrest : Follow rest) :
    Gets mem es (parseline mem es (k + 1) s) t rest := by
  obtain ⟨c, s1, he, hc, hl⟩ := h
  refine ⟨c, skipWs mem (skipWs mem s1 es) es, ?_, hc, hl.skipWs.skipWs⟩
  rw [parseline, he]
  simp only [bind, Except.bind, backs_stop hl (hrest.starts (by decide))]
  rw [peek_lexes hl.skipWs (by decide), hrest.starts (by decide)]

theorem parseline_list {t u : Tree} {us rest : List Tok} {k s : ℕ}
    (h : Gets mem es (parsepipe mem es k s) t (.symbol 59 :: us))
    (hu : ∀ s, Lexes mem es us s → Gets mem es (parseline mem es k s) u rest) :
    Gets mem es (parseline mem es (k + 1) s) (.list t u) rest := by
  obtain ⟨c, s1, he, hc, hl⟩ := h
  have hst : starts [59] (.symbol 59 :: us) = true := rfl
  have hback : starts [38] (.symbol 59 :: us) = false := rfl
  obtain ⟨d, s2, he2, hd, hl2⟩ := hu _ (gettoken_symbol hl.skipWs.skipWs).2
  refine ⟨.LIST c d, s2, ?_, hc.list hd, hl2⟩
  rw [parseline, he]
  simp only [bind, Except.bind, backs_stop hl hback]
  rw [peek_lexes hl.skipWs (by decide), hst]
  simp only [he2, pure, Except.pure]

theorem parseline_back {t : Tree} {rest : List Tok} {k s : ℕ}
    (h : Gets mem es (parsepipe mem es k s) t (.symbol 38 :: rest)) (hrest : Follow rest) :
    Gets mem es (parseline mem es (k + 1) s) (.back t) rest := by
  obtain ⟨c, s1, he, hc, hl⟩ := h
  have hst : starts [38] (.symbol 38 :: rest) = true := rfl
  have hpos := length_lexes hl
  obtain ⟨j, hj⟩ : ∃ j, es - s1 = j + 1 := by
    rw [List.length_cons] at hpos
    exact ⟨es - s1 - 1, by omega⟩
  obtain ⟨-, hl1⟩ := gettoken_symbol hl.skipWs
  refine ⟨.BACK c, _, ?_, hc.back, hl1.skipWs.skipWs⟩
  rw [parseline, he]
  simp only [bind, Except.bind, hj]
  rw [backs, peek_lexes hl (by decide), hst]
  simp only [backs_stop hl1 (hrest.starts (by decide))]
  rw [peek_lexes hl1.skipWs (by decide), hrest.starts (by decide)]

/-! ## Printed commands -/

/-- **`parseline` gets a printed command**, whatever block it stands in. -/
theorem parses_prints {t : Tree} {ts : List Tok} (h : Prints t ts) (ht : t.Ok) :
    Parses mem es t ts := by
  induction h with
  | simple rs l =>
    intro k s rest hk hrest hl
    obtain ⟨k, rfl⟩ : ∃ j, k = j + 3 := ⟨k - 3, by omega⟩
    rw [List.append_assoc] at hl
    have hargc : l.length < MAXARGS := by
      have := ht.argc_lt
      rw [argc_fill l ((isSimple_wrap rs _).trans rfl), argc_wrap] at this
      exact (Nat.le_add_left _ _).trans_lt this
    exact parseline_of (parsepipe_of (parseexec_simple hrest hargc hl) (hrest.starts (by decide)))
      hrest
  | @block t ts rs _ ih =>
    intro k s rest hk hrest hl
    obtain ⟨k, rfl⟩ : ∃ j, k = j + 2 := ⟨k - 2, by omega⟩
    rw [List.append_assoc] at hl
    rw [List.length_append, length_paren] at hk
    have := parseexec_paren (ih (ok_of_wrap _ ht)) (hrest.starts (by decide)) (k := k) (by omega) hl
    exact parseline_of (parsepipe_of this (hrest.starts (by decide))) hrest
  | @pipe t u ts us _ _ iht ihu =>
    intro k s rest hk hrest hl
    obtain ⟨k, rfl⟩ : ∃ j, k = j + 3 := ⟨k - 3, by omega⟩
    rw [List.append_assoc, List.cons_append] at hl
    rw [List.length_append, List.length_cons, length_paren, length_paren] at hk
    refine parseline_of (parsepipe_pipe (parseexec_block (iht ht.1) rfl (by omega) hl)
      fun s hl => ?_) hrest
    exact parsepipe_of (parseexec_block (ihu ht.2) (hrest.starts (by decide)) (by omega)
      hl) (hrest.starts (by decide))
  | @list t u ts us _ _ iht ihu =>
    intro k s rest hk hrest hl
    obtain ⟨k, rfl⟩ : ∃ j, k = j + 3 := ⟨k - 3, by omega⟩
    rw [List.append_assoc, List.cons_append] at hl
    rw [List.length_append, List.length_cons, length_paren, length_paren] at hk
    refine parseline_list (parsepipe_of (parseexec_block (iht ht.1) rfl (by omega) hl)
      rfl) fun s hl => ?_
    exact parseline_of (parsepipe_of (parseexec_block (ihu ht.2)
      (hrest.starts (by decide)) (by omega) hl) (hrest.starts (by decide))) hrest
  | @back t ts _ ih =>
    intro k s rest hk hrest hl
    obtain ⟨k, rfl⟩ : ∃ j, k = j + 2 := ⟨k - 2, by omega⟩
    rw [List.append_assoc] at hl
    rw [List.length_append, length_paren] at hk
    exact parseline_back (parsepipe_of (parseexec_block (ih ht) rfl (by omega) hl) rfl)
      hrest

end Gets

end Sh

end OsPlayground
