import OsPlayground.Sh.Parse

/-!
# Printing a command

A command is printed in two steps, to tokens and then to bytes:

* `Tree`, `Tree.Ok`: the commands, and those that can be printed.
* `Prints`: the ways to write a command down with its subcommands in parentheses.
* `Spells`: the lines that spell a list of tokens, with whitespace wherever it may stand.
* `print`; **`spelt_print`**: it writes the command down.
-/

namespace OsPlayground

namespace Sh

open Scsh (isSpace)

/-! ## Commands -/

/-- `<` or `>`. -/
inductive Dir
  | input
  | output
  deriving DecidableEq, Repr

namespace Dir

/-- `<` or `>`. -/
def symbol : Dir → ℕ
  | .input => 60
  | .output => 62

/-- The `mode` that `parseredirs` passes to `redircmd`. -/
def mode : Dir → ℕ
  | .input => O_RDONLY
  | .output => O_WRONLY ||| O_CREATE

/-- The `fd` that it passes. -/
def fd : Dir → ℕ
  | .input => 0
  | .output => 1

end Dir

/-- A command, with the bytes of its words. -/
inductive Tree
  | exec (argv : List (List ℕ))
  | redir (cmd : Tree) (dir : Dir) (file : List ℕ)
  | pipe (left right : Tree)
  | list (left right : Tree)
  | back (cmd : Tree)
  deriving DecidableEq, Repr

/-- A character that `gettoken` ends a word at. -/
def isDelim (c : ℕ) : Bool := isSpace c || isSymbol c

/-- What ends a word: whitespace, a symbol or the NUL. -/
def isBreak (c : ℕ) : Bool := isDelim c || c == 0

/-- What `gettoken` takes for one word. -/
structure WordOk (w : List ℕ) : Prop where
  ne_nil : w ≠ []
  chars : ∀ c ∈ w, isBreak c = false

namespace Tree

/-- A command that can be printed. -/
def Ok : Tree → Prop
  | .exec argv => argv.length ≤ MAXARGS - 1 ∧ ∀ w ∈ argv, WordOk w
  | .redir cmd _ file => cmd.Ok ∧ WordOk file
  | .pipe left right => left.Ok ∧ right.Ok
  | .list left right => left.Ok ∧ right.Ok
  | .back cmd => cmd.Ok

/-- One more word for the program under the redirections. -/
def push (w : List ℕ) : Tree → Tree
  | .exec argv => .exec (argv ++ [w])
  | .redir cmd dir file => .redir (cmd.push w) dir file
  | cmd => cmd

/-- The number of its words. -/
def argc : Tree → ℕ
  | .exec argv => argv.length
  | .redir cmd _ _ => cmd.argc
  | _ => 0

/-- A program and redirections. -/
def isSimple : Tree → Bool
  | .exec _ => true
  | .redir cmd _ _ => cmd.isSimple
  | _ => false

end Tree

/-- A redirection. -/
structure Redir where
  dir : Dir
  file : List ℕ

/-- The redirections `rs` of a command, the first one innermost. -/
def wrap (cmd : Tree) (rs : List Redir) : Tree := rs.foldl (fun c r => .redir c r.dir r.file) cmd

/-- Words for a command, with the redirections that stand after each. -/
def fill (cmd : Tree) (l : List (List ℕ × List Redir)) : Tree :=
  l.foldl (fun c a => wrap (c.push a.1) a.2) cmd

/-! ## Tokens -/

/-- What `gettoken` returns. -/
inductive Tok
  | symbol (c : ℕ)
  | word (w : List ℕ)
  deriving DecidableEq, Repr

/-- In parentheses. -/
def paren (ts : List Tok) : List Tok := .symbol 40 :: (ts ++ [.symbol 41])

/-- The tokens of redirections. -/
def redirToks (rs : List Redir) : List Tok :=
  rs.flatMap fun r => [.symbol r.dir.symbol, .word r.file]

/-- The tokens of arguments, each with the redirections after it. -/
def argToks (l : List (List ℕ × List Redir)) : List Tok :=
  l.flatMap fun a => .word a.1 :: redirToks a.2

/-- `ts` writes the command down. A program and its redirections are written in any order that
keeps the words and the redirections in theirs, and every other subcommand is in parentheses. -/
inductive Prints : Tree → List Tok → Prop
  | simple (rs : List Redir) (l : List (List ℕ × List Redir)) :
    Prints (fill (wrap (.exec []) rs) l) (redirToks rs ++ argToks l)
  | block {cmd : Tree} {ts : List Tok} (rs : List Redir) : Prints cmd ts →
    Prints (wrap cmd rs) (paren ts ++ redirToks rs)
  | pipe {left right : Tree} {ts us : List Tok} : Prints left ts → Prints right us →
    Prints (.pipe left right) (paren ts ++ .symbol 124 :: paren us)
  | list {left right : Tree} {ts us : List Tok} : Prints left ts → Prints right us →
    Prints (.list left right) (paren ts ++ .symbol 59 :: paren us)
  | back {cmd : Tree} {ts : List Tok} : Prints cmd ts →
    Prints (.back cmd) (paren ts ++ [.symbol 38])

/-- The line `t` spells the tokens. -/
inductive Spells : List Tok → List ℕ → Prop
  | nil : Spells [] []
  | space {c : ℕ} {ts : List Tok} {t : List ℕ} : isSpace c = true → Spells ts t →
    Spells ts (c :: t)
  | symbol {c : ℕ} {ts : List Tok} {t : List ℕ} : isSymbol c = true →
    (c = 62 → t.head? ≠ some 62) → Spells ts t → Spells (.symbol c :: ts) (c :: t)
  | word {w : List ℕ} {ts : List Tok} {t : List ℕ} : WordOk w →
    (∀ c ∈ t.head?, isDelim c = true) → Spells ts t → Spells (.word w :: ts) (w ++ t)

/-- The line `t` is a command, printed. -/
def Spelt (cmd : Tree) (t : List ℕ) : Prop := ∃ ts, Prints cmd ts ∧ Spells ts t

/-! ## The words of a command -/

theorem argc_wrap (rs : List Redir) : ∀ cmd : Tree, (wrap cmd rs).argc = cmd.argc := by
  induction rs with
  | nil => exact fun _ => rfl
  | cons r rs ih => exact fun cmd => ih (.redir cmd r.dir r.file)

theorem Tree.Ok.argc_lt {cmd : Tree} (h : cmd.Ok) : cmd.argc < MAXARGS := by
  induction cmd with
  | exec argv => exact Nat.lt_succ_of_le h.1
  | redir cmd _ _ ih => exact ih h.1
  | pipe _ _ _ _ => exact Nat.succ_pos _
  | list _ _ _ _ => exact Nat.succ_pos _
  | back _ _ => exact Nat.succ_pos _

theorem ok_of_wrap {rs : List Redir} : ∀ cmd : Tree, (wrap cmd rs).Ok → cmd.Ok := by
  induction rs with
  | nil => exact fun _ h => h
  | cons r rs ih => exact fun cmd h => (ih (.redir cmd r.dir r.file) h).1

theorem argc_push {cmd : Tree} (h : cmd.isSimple = true) (w : List ℕ) :
    (cmd.push w).argc = cmd.argc + 1 ∧ (cmd.push w).isSimple = true := by
  induction cmd with
  | exec argv => exact ⟨List.length_append, rfl⟩
  | redir cmd _ _ ih => exact ih h
  | pipe _ _ _ _ => exact absurd h (by simp [Tree.isSimple])
  | list _ _ _ _ => exact absurd h (by simp [Tree.isSimple])
  | back _ _ => exact absurd h (by simp [Tree.isSimple])

theorem isSimple_wrap (rs : List Redir) : ∀ cmd : Tree, (wrap cmd rs).isSimple = cmd.isSimple := by
  induction rs with
  | nil => exact fun _ => rfl
  | cons r rs ih => exact fun cmd => ih (.redir cmd r.dir r.file)

theorem argc_fill (l : List (List ℕ × List Redir)) : ∀ {cmd : Tree}, cmd.isSimple = true →
    (fill cmd l).argc = cmd.argc + l.length := by
  induction l with
  | nil => exact fun {_} _ => rfl
  | cons a l ih =>
    intro cmd h
    obtain ⟨hargc, hs⟩ := argc_push h a.1
    have hw : (wrap (cmd.push a.1) a.2).isSimple = true := by rw [isSimple_wrap, hs]
    have := ih hw
    rw [argc_wrap, hargc, Nat.add_assoc, Nat.add_comm 1] at this
    exact this

/-! ## A printer -/

namespace Tree

/-- The tokens of a tree, its parts in parentheses. -/
def tokens : Tree → List Tok
  | .exec argv => argv.map .word
  | .redir cmd dir file =>
    (if isSimple cmd then tokens cmd else paren (tokens cmd)) ++ [.symbol dir.symbol, .word file]
  | .pipe left right => paren (tokens left) ++ .symbol 124 :: paren (tokens right)
  | .list left right => paren (tokens left) ++ .symbol 59 :: paren (tokens right)
  | .back cmd => paren (tokens cmd) ++ [.symbol 38]

end Tree

/-- The space between two words. -/
def gap : List Tok → List ℕ
  | .word _ :: _ => [32]
  | _ => []

/-- The text of tokens. -/
def spell : List Tok → List ℕ
  | [] => []
  | .symbol c :: ts => c :: spell ts
  | .word w :: ts => w ++ (gap ts ++ spell ts)

/-- The command with one space between two words and no other whitespace. -/
def print (cmd : Tree) : List ℕ := spell cmd.tokens

/-! ## The printer writes the command down -/

/-- Tokens that `spell` spells: a `>` has its file after it. -/
def Spellable : List Tok → Prop
  | [] => True
  | .symbol c :: ts => isSymbol c = true ∧ (c = 62 → ∃ w us, ts = .word w :: us) ∧ Spellable ts
  | .word w :: ts => WordOk w ∧ Spellable ts

theorem spellable_append {ts us : List Tok} (ht : Spellable ts) (hu : Spellable us) :
    Spellable (ts ++ us) := by
  induction ts with
  | nil => exact hu
  | cons a ts ih =>
    cases a with
    | word w => exact ⟨ht.1, ih ht.2⟩
    | symbol c =>
      refine ⟨ht.1, fun h => ?_, ih ht.2.2⟩
      obtain ⟨w, vs, rfl⟩ := ht.2.1 h
      exact ⟨w, vs ++ us, rfl⟩

theorem spellable_symbol {c : ℕ} (hc : isSymbol c = true) (h : c ≠ 62) {ts : List Tok}
    (ht : Spellable ts) : Spellable (.symbol c :: ts) :=
  ⟨hc, fun e => absurd e h, ht⟩

theorem spellable_paren {ts : List Tok} (ht : Spellable ts) : Spellable (paren ts) :=
  spellable_symbol rfl (by decide)
    (spellable_append ht (spellable_symbol rfl (by decide) trivial))

/-- A command that can be printed has tokens that can be spelt. -/
theorem Tree.Ok.spellable {cmd : Tree} (h : cmd.Ok) : Spellable cmd.tokens := by
  induction cmd with
  | exec argv =>
    obtain ⟨-, h⟩ := h
    rw [tokens]
    induction argv with
    | nil => trivial
    | cons w argv ih =>
      exact ⟨h w List.mem_cons_self, ih fun v hv => h v (List.mem_cons_of_mem w hv)⟩
  | redir cmd dir file ih =>
    have hf : Spellable [.symbol dir.symbol, .word file] :=
      ⟨by cases dir <;> rfl, fun _ => ⟨file, [], rfl⟩, h.2, trivial⟩
    rw [tokens]
    refine spellable_append ?_ hf
    split_ifs
    · exact ih h.1
    · exact spellable_paren (ih h.1)
  | pipe left right hl hr =>
    exact spellable_append (spellable_paren (hl h.1))
      (spellable_symbol rfl (by decide) (spellable_paren (hr h.2)))
  | list left right hl hr =>
    exact spellable_append (spellable_paren (hl h.1))
      (spellable_symbol rfl (by decide) (spellable_paren (hr h.2)))
  | back cmd ih =>
    exact spellable_append (spellable_paren (ih h)) (spellable_symbol rfl (by decide) trivial)

theorem WordOk.cons {w : List ℕ} (h : WordOk w) : ∃ c v, w = c :: v ∧ isBreak c = false := by
  obtain ⟨c, v, rfl⟩ := List.exists_cons_of_ne_nil h.ne_nil
  exact ⟨c, v, rfl, h.chars c List.mem_cons_self⟩

theorem spells_spell {ts : List Tok} (h : Spellable ts) : Spells ts (spell ts) := by
  induction ts with
  | nil => exact .nil
  | cons a ts ih =>
    cases a with
    | symbol c =>
      refine .symbol h.1 (fun hc hhead => ?_) (ih h.2.2)
      obtain ⟨w, us, rfl⟩ := h.2.1 hc
      obtain ⟨d, v, rfl, hd⟩ := h.2.2.1.cons
      have : d = 62 := by simpa [spell] using hhead
      rw [this] at hd
      exact absurd hd (by decide)
    | word w =>
      cases ts with
      | nil => exact .word h.1 (fun c hc => by simp [gap, spell] at hc) (ih h.2)
      | cons b ts =>
        cases b with
        | symbol c =>
          refine .word h.1 (fun d hd => ?_) (ih h.2)
          have hcd : c = d := by simpa [gap, spell] using hd
          rw [← hcd, isDelim, h.2.1, Bool.or_true]
        | word v =>
          refine .word h.1 (fun d hd => ?_) (.space rfl (ih h.2))
          have hd : 32 = d := by simpa [gap, spell] using hd
          rw [← hd]
          rfl

theorem redirToks_append (rs ps : List Redir) :
    redirToks (rs ++ ps) = redirToks rs ++ redirToks ps := List.flatMap_append

theorem wrap_append (cmd : Tree) (rs ps : List Redir) :
    wrap cmd (rs ++ ps) = wrap (wrap cmd rs) ps := List.foldl_append

theorem tokens_simple {cmd : Tree} (h : cmd.isSimple = true) :
    ∃ argv rs, cmd = wrap (.exec argv) rs ∧ cmd.tokens = argv.map .word ++ redirToks rs := by
  induction cmd with
  | exec argv => exact ⟨argv, [], rfl, (List.append_nil _).symm⟩
  | redir cmd dir file ih =>
    have h : cmd.isSimple = true := h
    obtain ⟨argv, rs, hc, ht⟩ := ih h
    refine ⟨argv, rs ++ [⟨dir, file⟩], ?_, ?_⟩
    · rw [wrap_append, ← hc]
      rfl
    · rw [Tree.tokens, if_pos h, ht, redirToks_append, List.append_assoc]
      rfl
  | pipe _ _ _ _ => exact absurd h (by simp [Tree.isSimple])
  | list _ _ _ _ => exact absurd h (by simp [Tree.isSimple])
  | back _ _ => exact absurd h (by simp [Tree.isSimple])

theorem fill_words (argv : List (List ℕ)) : ∀ ws : List (List ℕ),
    fill (.exec ws) (argv.map fun w => (w, [])) = .exec (ws ++ argv) := by
  induction argv with
  | nil => exact fun ws => congrArg Tree.exec (List.append_nil ws).symm
  | cons w argv ih =>
    intro ws
    have h := ih (ws ++ [w])
    rw [List.append_assoc] at h
    exact h

theorem argToks_words (argv : List (List ℕ)) :
    argToks (argv.map fun w => (w, [])) = argv.map .word := by
  induction argv with
  | nil => rfl
  | cons w argv ih => exact congrArg (Tok.word w :: ·) ih

theorem prints_words (argv : List (List ℕ)) (rs : List Redir) :
    Prints (wrap (.exec argv) rs) (argv.map .word ++ redirToks rs) := by
  rcases List.eq_nil_or_concat' argv with rfl | ⟨ws, w, rfl⟩
  · have h := Prints.simple rs []
    rw [argToks, List.flatMap_nil, List.append_nil] at h
    exact h
  · have h := Prints.simple [] (ws.map (fun v => (v, [])) ++ [(w, rs)])
    have hfill : fill (wrap (.exec []) []) (ws.map (fun v => (v, [])) ++ [(w, rs)]) =
        wrap (.exec (ws ++ [w])) rs := by
      rw [fill, List.foldl_append]
      change wrap (Tree.push w (fill (.exec []) _)) rs = _
      rw [fill_words]
      rfl
    have htoks : redirToks [] ++ argToks (ws.map (fun v => (v, [])) ++ [(w, rs)]) =
        (ws ++ [w]).map .word ++ redirToks rs := by
      rw [argToks, List.flatMap_append, ← argToks, argToks_words, List.map_append,
        List.append_assoc]
      simp [redirToks]
    rw [hfill, htoks] at h
    exact h

theorem prints_tokens (cmd : Tree) : Prints cmd cmd.tokens := by
  induction cmd with
  | exec argv =>
    have h := prints_words argv []
    rw [redirToks, List.flatMap_nil, List.append_nil] at h
    exact h
  | redir cmd dir file ih =>
    by_cases hs : cmd.isSimple = true
    · have hr : (Tree.redir cmd dir file).isSimple = true := hs
      obtain ⟨argv, rs, hc, ht⟩ := tokens_simple hr
      rw [ht, hc]
      exact prints_words argv rs
    · rw [Tree.tokens, if_neg hs]
      exact ih.block [⟨dir, file⟩]
  | pipe left right hl hr => exact hl.pipe hr
  | list left right hl hr => exact hl.list hr
  | back cmd ih => exact ih.back

/-- **The printer writes the command down.** -/
theorem spelt_print {cmd : Tree} (h : cmd.Ok) : Spelt cmd (print cmd) :=
  ⟨cmd.tokens, prints_tokens cmd, spells_spell h.spellable⟩

end Sh

end OsPlayground
