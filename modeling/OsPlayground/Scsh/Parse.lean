import Mathlib.Data.List.Basic
import Mathlib.Tactic.SplitIfs
import Mathlib.Logic.Function.Basic

/-!
# The parser of `scsh.c`

`parseexp` over the bytes of one line. A pointer into the line is its offset.

* `skip`, `matching`, `elements`: the loops.
* `parseatom`, `parselist`, `parsesexp`, `parseexp`; `snulterminate` and the bytes that it leaves.
-/

namespace OsPlayground

namespace Scsh

/-- `MAXARGS` of `scsh.c`. -/
abbrev MAXARGS : ℕ := 10

/-- `strchr(whitespace, c)`: space, tab, carriage return, newline, vertical tab. -/
def isSpace (c : ℕ) : Bool := c ∈ [32, 9, 13, 10, 11]

/-- `strchr(esymbols, c)`: the parentheses. -/
def isSymbol (c : ℕ) : Bool := c ∈ [40, 41]

/-- `APPLY` and `LIST`. -/
inductive Kind
  | APPLY
  | LIST
  deriving DecidableEq, Repr

/-- `struct sexp`; `null` is the null pointer. -/
inductive Sexp
  | null
  | atom (symbol esymbol : ℕ)
  | list (type : Kind) (sexps : List Sexp)
  deriving Repr

/-- Why there is no tree; a syntax error keeps `*ps`. -/
inductive Stop
  | syntaxError (ps : ℕ)
  | fuel
  deriving DecidableEq, Repr

/-! ## The loops -/

section Loops

variable (mem : ℕ → ℕ)

/-- Skip the bytes with `p`, with `k` bytes to go. -/
def skip (p : ℕ → Bool) : ℕ → ℕ → ℕ
  | 0, s => s
  | k + 1, s => if p (mem s) then skip p k (s + 1) else s

/-- The loop of `peek` and of `parsesexp`. -/
def skipWs (s es : ℕ) : ℕ := skip mem isSpace (es - s) s

/-- The first loop of `parselist`, with `k` bytes to go: `res`. -/
def matching : ℕ → ℕ → ℕ → ℕ
  | 0, _, res => res
  | k + 1, i, res =>
    if mem res = 40 then matching k (i + 1) (res + 1)
    else if mem res = 41 then
      if i = 1 then res else matching k (i - 1) (res + 1)
    else matching k i (res + 1)

/-- The second loop of `parselist`, with room for `n` more elements. -/
def elements (parse : ℕ → ℕ → Except Stop (Sexp × ℕ)) (res : ℕ) :
    ℕ → ℕ → Except Stop (List Sexp × ℕ)
  | 0, ps => .ok ([], ps)
  | n + 1, ps =>
    if ps < res then do
      let (e, ps) ← parse ps res
      let (l, ps) ← elements parse res n ps
      return (e :: l, ps)
    else .ok ([], ps)

/-! ## The functions -/

/-- `parselist`: the elements and `*ps`. -/
def parselist (parse : ℕ → ℕ → Except Stop (Sexp × ℕ)) (ps es : ℕ) :
    Except Stop (List Sexp × ℕ) :=
  let res := matching mem (es - ps) 1 ps
  if res = es then .error (.syntaxError ps) else elements parse res MAXARGS ps

/-- `parseatom`. -/
def parseatom (ps es : ℕ) : Sexp × ℕ :=
  let e := skip mem (fun c => !isSpace c && !isSymbol c) (es - ps) ps
  (.atom ps e, e)

/-- `parsesexp`: the tree and `*ps`. -/
def parsesexp : ℕ → ℕ → ℕ → Except Stop (Sexp × ℕ)
  | 0, _, _ => .error .fuel
  | fuel + 1, ps, es =>
    let ps := skipWs mem ps es
    match mem ps with
    | 0 => .ok (.null, ps)
    | 40 => do
      let (l, ps) ← parselist mem (parsesexp fuel) (ps + 1) es
      return (.list .APPLY l, ps + 1)
    | 39 => do
      -- two bytes are skipped, whatever the second one is
      let (l, ps) ← parselist mem (parsesexp fuel) (ps + 2) es
      return (.list .LIST l, ps + 1)
    | _ => .ok (parseatom mem ps es)

end Loops

mutual

/-- `snulterminate`: the bytes after it. -/
def snulterminate : Sexp → (ℕ → ℕ) → ℕ → ℕ
  | .null, mem => mem
  | .atom _ e, mem => Function.update mem e 0
  | .list _ l, mem => snulterminates l mem

/-- `snulterminate` of every element. -/
def snulterminates : List Sexp → (ℕ → ℕ) → ℕ → ℕ
  | [], mem => mem
  | e :: l, mem => snulterminates l (snulterminate e mem)

end

/-- The bytes of a line with the NUL after it. -/
def bytesOf (s : List ℕ) (i : ℕ) : ℕ := s.getD i 0

/-- `strlen`. -/
def strlen (s : List ℕ) : ℕ := (s.takeWhile (· ≠ 0)).length

/-- `parseexp`: the tree and the bytes that its symbols point into. -/
def parseexp (s : List ℕ) : Except Stop (Sexp × (ℕ → ℕ)) := do
  let mem := bytesOf s
  let es := strlen s
  let (exp, ps) ← parsesexp mem (es + 1) 0 es
  let ps := skipWs mem ps es
  if ps = es then return (exp, snulterminate exp mem) else .error (.syntaxError ps)

end Scsh

end OsPlayground
