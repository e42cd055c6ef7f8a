import Mathlib.Data.Fintype.Basic
import OsPlayground.Lib.Ring
import OsPlayground.Lib.Run

/-!
# The console's input

`consoleintr` and `consoleread` of `console.c`. A call of `consoleintr`, and a section of
`consoleread` between taking `cons.lock` and releasing it or sleeping, runs alone and is one step.

* `Input`, `intrChar`, `readLine`: the line buffer, a typed character, and the loop of
  `consoleread`.
* `ConsoleSys`, `consoleStep`: the readers, with what was committed, taken and returned.
-/

namespace OsPlayground

open Lib

abbrev INPUT_BUF : ℕ := 128

/-- The number of values of the indices. -/
@[irreducible] def INDICES : ℕ := 0x100000000

abbrev NEWLINE : ℕ := 10
abbrev RETURN : ℕ := 13
abbrev CTRL_D : ℕ := 4
abbrev CTRL_H : ℕ := 8
abbrev CTRL_P : ℕ := 16
abbrev CTRL_U : ℕ := 21
abbrev DELETE : ℕ := 127

/-- `n - 1` on an index. -/
def dec (n : ℕ) : ℕ := if n = 0 then INDICES - 1 else n - 1

/-- `input`: the line buffer with its three counters. -/
structure Input where
  buf : ℕ → ℕ
  r : ℕ
  w : ℕ
  e : ℕ

namespace Input

/-- `input.e--`. -/
def back (i : Input) : Input := { i with e := dec i.e }

/-- `input.r++`. -/
def next (i : Input) : Input := { i with r := (i.r + 1) % INDICES }

/-- `input.r--`. -/
def unread (i : Input) : Input := { i with r := dec i.r }

/-- `input.buf[input.e++ % INPUT_BUF] = c`, where the cells are bytes. -/
def put (c : ℕ) (i : Input) : Input :=
  { i with buf := Function.update i.buf (i.e % INPUT_BUF) (c % 256), e := (i.e + 1) % INDICES }

/-- The bytes from `w` to `e`, which `input.w = input.e` commits. -/
def edited (i : Input) : List ℕ :=
  (List.range ((i.e + INDICES - i.w) % INDICES)).map fun k => i.buf ((i.w + k) % INPUT_BUF)

end Input

/-- The loop of control-U: `n` rounds. -/
def killLine : ℕ → Input → Input
  | 0, i => i
  | n + 1, i =>
    if i.e ≠ i.w ∧ i.buf (dec i.e % INPUT_BUF) ≠ NEWLINE then
      killLine n i.back
    else i

/-- One round of the loop of `consoleintr`, with the bytes committed. The loop of control-U ends
after as many rounds as there are edited bytes. -/
def intrChar (c : ℕ) (i : Input) : Input × List ℕ :=
  if c = CTRL_P then (i, [])
  else if c = CTRL_U then (killLine ((i.e + INDICES - i.w) % INDICES) i, [])
  else if c = CTRL_H ∨ c = DELETE then (if i.e ≠ i.w then i.back else i, [])
  else if c ≠ 0 ∧ (i.e + INDICES - i.r) % INDICES < INPUT_BUF then
    let c := if c = RETURN then NEWLINE else c
    let i := i.put c
    if c = NEWLINE ∨ c = CTRL_D ∨ i.e = (i.r + INPUT_BUF) % INDICES then
      ({ i with w := i.e }, i.edited)
    else (i, [])
  else (i, [])

/-- How a section of `consoleread` ends: it returns at the end of a line or of what was asked for,
returns at a control-D, returns -1, or sleeps with `n` bytes to go. -/
inductive LineEnd
  | done
  | eof
  | fail
  | sleep (n : ℕ)
  deriving DecidableEq

/-- The loop of `consoleread`, with `n` of `target` bytes to go: the bytes it takes, and how it
ends. -/
def readLine (killed : Bool) (target : ℕ) : ℕ → Input → Input × List ℕ × LineEnd
  | 0, i => (i, [], .done)
  | n + 1, i =>
    if i.r = i.w then
      if killed then (i, [], .fail) else (i, [], .sleep (n + 1))
    else
      let c := i.buf (i.r % INPUT_BUF)
      if c = CTRL_D then (if n + 1 < target then i.next.unread else i.next, [], .eof)
      else if c = NEWLINE then (i.next, [c], .done)
      else
        let r := readLine killed target n i.next
        (r.1, c :: r.2.1, r.2.2)

/-! ## The readers -/

/-- A call of `consoleread` in progress: `n` of `target` bytes are to go. -/
structure Reader where
  /-- History variable: the number of the call. -/
  id : ℕ
  target : ℕ
  n : ℕ
  got : List ℕ

/-- The console with `N` processes. -/
structure ConsoleSys (N : ℕ) where
  input : Input
  reader : Fin N → Option Reader
  asleep : Fin N → Bool
  killed : Fin N → Bool
  /-- History variables: the number of reads so far; the bytes committed; the bytes taken, in order,
  each with the number of the read that took it; what each read returned; and what reads that returned
  -1 had taken, with the process. -/
  reads : ℕ
  committed : List ℕ
  taken : List (ℕ × ℕ)
  results : List (ℕ × List ℕ)
  dropped : List (Fin N × ℕ × List ℕ)

end OsPlayground
