import OsPlayground.Scsh.Print

/-!
# The parser of `sh.c`

`parsecmd` over the bytes of one line, as in `scsh.c`: a pointer into the line is its offset, and
an allocation succeeds.

* `gettoken`, `peek`: the tokens.
* `parseredirs`, `execargs`, `backs`: the loops.
* `parseline`, `parsepipe`, `parseexec`, `parseblock`, `parsecmd`.
* `nulterminate` and the bytes that it leaves.
-/

namespace OsPlayground

namespace Sh

open Scsh (skip skipWs isSpace bytesOf strlen)

/-- `MAXARGS` of `sh.c`. -/
abbrev MAXARGS : ℕ := 10

/-! The flags of `fcntl.h`. -/

abbrev O_RDONLY : ℕ := 0x000

abbrev O_WRONLY : ℕ := 0x001

abbrev O_CREATE : ℕ := 0x200

/-- `strchr(symbols, c)`: the bytes of `<|>&;()`. -/
def isSymbol (c : ℕ) : Bool := c ∈ [60, 124, 62, 38, 59, 40, 41]

/-- `struct cmd`, by its `type`. An entry of `argv` is kept with the one of `eargv`, and the null
pointer that ends both is left out. -/
inductive Cmd
  | EXEC (argv : List (ℕ × ℕ))
  | REDIR (cmd : Cmd) (file efile mode fd : ℕ)
  | PIPE (left right : Cmd)
  | LIST (left right : Cmd)
  | BACK (cmd : Cmd)
  deriving DecidableEq, Repr

/-- `cmd->argv[argc] = q` and `cmd->eargv[argc] = eq`. The node `cmd` of `parseexec` is the one
under the redirections that `ret` has got so far. -/
def Cmd.push (q eq : ℕ) : Cmd → Cmd
  | .EXEC argv => .EXEC (argv ++ [(q, eq)])
  | .REDIR cmd file efile mode fd => .REDIR (cmd.push q eq) file efile mode fd
  | cmd => cmd

/-- Why there is no tree. -/
inductive Stop
  | panic (s : String)
  /-- `leftovers`, with the place of what is left, and then `panic("syntax")` -/
  | leftovers (s : ℕ)
  | fuel
  deriving DecidableEq, Repr

/-- What `gettoken` returns, and what it leaves in `*q`, `*eq` and `*ps`. -/
structure Token where
  ret : ℕ
  q : ℕ
  eq : ℕ
  ps : ℕ
  deriving DecidableEq, Repr

section Parse

variable (mem : ℕ → ℕ) (es : ℕ)

/-! ## Tokens -/

/-- The `switch` of `gettoken`: `ret` and `s` after it. -/
def scan (s : ℕ) : ℕ × ℕ :=
  if mem s = 0 then (0, s)
  else if mem s ∈ [124, 40, 41, 59, 38, 60] then (mem s, s + 1)
  else if mem s = 62 then
    if mem (s + 1) = 62 then (43, s + 2) else (62, s + 1)
  else (97, skip mem (fun c => !isSpace c && !isSymbol c) (es - s) s)

/-- `gettoken(&s, es, &q, &eq)`. -/
def gettoken (s : ℕ) : Token where
  ret := (scan mem es (skipWs mem s es)).1
  q := skipWs mem s es
  eq := (scan mem es (skipWs mem s es)).2
  ps := skipWs mem (scan mem es (skipWs mem s es)).2 es

/-- `peek`: its answer and `*ps`. -/
def peek (s : ℕ) (toks : List ℕ) : Bool × ℕ :=
  let s := skipWs mem s es
  (mem s != 0 && toks.contains (mem s), s)

/-! ## The loops -/

/-- The `switch` of `parseredirs`. -/
def redircmd (tok : ℕ) (cmd : Cmd) (q eq : ℕ) : Cmd :=
  if tok = 60 then .REDIR cmd q eq O_RDONLY 0
  else if tok = 62 then .REDIR cmd q eq (O_WRONLY ||| O_CREATE) 1
  else if tok = 43 then .REDIR cmd q eq (O_WRONLY ||| O_CREATE) 1
  else cmd

/-- `parseredirs`, with `k` rounds to go. -/
def parseredirs : ℕ → Cmd → ℕ → Except Stop (Cmd × ℕ)
  | 0, _, _ => .error .fuel
  | k + 1, cmd, s =>
    match peek mem es s [60, 62] with
    | (false, s) => .ok (cmd, s)
    | (true, s) =>
      let tok := gettoken mem es s
      let file := gettoken mem es tok.ps
      if file.ret ≠ 97 then .error (.panic "missing file for redirection")
      else parseredirs k (redircmd tok.ret cmd file.q file.eq) file.ps

/-- The words of `parseexec`, with `k` rounds to go. A round starts at a call of `parseredirs`, the
one in front of the loop or the one at the end of its body. -/
def execargs : ℕ → Cmd → ℕ → ℕ → Except Stop (Cmd × ℕ)
  | 0, _, _, _ => .error .fuel
  | k + 1, ret, argc, s => do
    let (ret, s) ← parseredirs mem es (es - s + 1) ret s
    match peek mem es s [124, 41, 38, 59] with
    | (true, s) => .ok (ret, s)
    | (false, s) =>
      let tok := gettoken mem es s
      if tok.ret = 0 then .ok (ret, tok.ps)
      else if tok.ret ≠ 97 then .error (.panic "syntax")
      else if argc + 1 ≥ MAXARGS then .error (.panic "too many args")
      else execargs k (ret.push tok.q tok.eq) (argc + 1) tok.ps

/-- The loop of `parseline`, with `k` rounds to go. -/
def backs : ℕ → Cmd → ℕ → Cmd × ℕ
  | 0, cmd, s => (cmd, s)
  | k + 1, cmd, s =>
    match peek mem es s [38] with
    | (false, s) => (cmd, s)
    | (true, s) => backs k (.BACK cmd) (gettoken mem es s).ps

/-! ## The functions -/

mutual

/-- `parseline`. -/
def parseline : ℕ → ℕ → Except Stop (Cmd × ℕ)
  | 0, _ => .error .fuel
  | fuel + 1, s => do
    let (cmd, s) ← parsepipe fuel s
    let (cmd, s) := backs mem es (es - s + 1) cmd s
    match peek mem es s [59] with
    | (false, s) => .ok (cmd, s)
    | (true, s) => do
      let (right, s) ← parseline fuel (gettoken mem es s).ps
      return (.LIST cmd right, s)

/-- `parsepipe`. -/
def parsepipe : ℕ → ℕ → Except Stop (Cmd × ℕ)
  | 0, _ => .error .fuel
  | fuel + 1, s => do
    let (cmd, s) ← parseexec fuel s
    match peek mem es s [124] with
    | (false, s) => .ok (cmd, s)
    | (true, s) => do
      let (right, s) ← parsepipe fuel (gettoken mem es s).ps
      return (.PIPE cmd right, s)

/-- `parseexec`. -/
def parseexec : ℕ → ℕ → Except Stop (Cmd × ℕ)
  | 0, _ => .error .fuel
  | fuel + 1, s =>
    match peek mem es s [40] with
    | (true, s) => parseblock fuel s
    | (false, s) => execargs mem es (es - s + 1) (.EXEC []) 0 s

/-- `parseblock`. -/
def parseblock : ℕ → ℕ → Except Stop (Cmd × ℕ)
  | 0, _ => .error .fuel
  | fuel + 1, s =>
    match peek mem es s [40] with
    | (false, _) => .error (.panic "parseblock")
    | (true, s) => do
      let (cmd, s) ← parseline fuel (gettoken mem es s).ps
      match peek mem es s [41] with
      | (false, _) => .error (.panic "syntax - missing )")
      | (true, s) =>
        let s := (gettoken mem es s).ps
        parseredirs mem es (es - s + 1) cmd s

end

end Parse

/-- `nulterminate`: the bytes after it. -/
def nulterminate : Cmd → (ℕ → ℕ) → ℕ → ℕ
  | .EXEC argv, mem => argv.foldl (fun mem a => Function.update mem a.2 0) mem
  | .REDIR cmd _ efile _ _, mem => Function.update (nulterminate cmd mem) efile 0
  | .PIPE left right, mem => nulterminate right (nulterminate left mem)
  | .LIST left right, mem => nulterminate right (nulterminate left mem)
  | .BACK cmd, mem => nulterminate cmd mem

/-- `parsecmd`: the tree and the bytes that its strings point into. -/
def parsecmd (s : List ℕ) : Except Stop (Cmd × (ℕ → ℕ)) := do
  let mem := bytesOf s
  let es := strlen s
  let (cmd, ps) ← parseline mem es (4 * es + 4) 0
  let ps := (peek mem es ps []).2
  if ps = es then return (cmd, nulterminate cmd mem) else .error (.leftovers ps)

end Sh

end OsPlayground
