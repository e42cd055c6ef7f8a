import OsPlayground.Lib.Access
import OsPlayground.Memo.Capture
import OsPlayground.Pipe.Model

/-!
# System calls and user memory

`syscall.c` and the handlers of `sysfile.c` that read or write through a user pointer, with every
user address that they touch. A failed call is one that returns -1 (or panics).

* `fetchint`, `fetchstr`, `argint`, `argptr`, `argstr`: the arguments.
* `piperead`, `readi`, `writei`, ...: what the callees do with the user's buffer.
* `sysRead`, `sysWrite`, `sysFstat`, `sysPipe`, `sysGetmemoAt`; `Call.run`.
-/

namespace OsPlayground

open Lib

/-- The start of the shared window: `KERNBASE - MAXSHAREDPG*PGSIZE`. -/
abbrev SHAREDBASE : ℕ := 0x80000000 - 10 * 4096

namespace Syscall

/-- The bytes from `a` on, as the kernel addresses them with a `char *`. -/
def bytes (a n : ℕ) : List ℕ := span UINTS a n

/-- A `uint` read as an `int`. -/
def toInt (n : ℕ) : ℤ := if n < 2 ^ 31 then n else n - 2 ^ 32

/-! ## Files -/

/-- What a file descriptor leads to, with what the callee finds when it gets there. -/
inductive Target
  /-- A pipe; `p` is its state when the copying of `piperead` starts, and `ps` are those in which
  the sections of `pipewrite` start, with `killed`. -/
  | pipe (p : Pipe) (ps : List (Bool × Pipe))
  | memo
  /-- A device; `input` is what `consoleread` finds before it is killed. -/
  | device (major : ℤ) (input : List ℕ)
  | inode (size off : ℕ)

/-- An open file, as the calls see it. -/
structure OpenFile where
  readable : Bool
  writable : Bool
  target : Target

/-- A byte of user memory. -/
def byte (n : ℕ) : Fin 256 := Fin.ofNat 256 n

/-- The calling process: `sz`, `tf->esp`, its memory and its files. -/
structure User where
  sz : ℕ
  esp : ℕ
  mem : ℕ → Fin 256
  ofile : Fin 16 → Option OpenFile

namespace User

variable (u : User)

/-- `*(int*)a`, as a `uint`. -/
def word (a : ℕ) : ℕ :=
  (u.mem a).val + 2 ^ 8 * (u.mem (a + 1)).val + 2 ^ 16 * (u.mem (a + 2)).val +
    2 ^ 24 * (u.mem (a + 3)).val

/-! ## Arguments -/

/-- `fetchint`. -/
def fetchint (addr : ℕ) : Access ℕ := do
  Access.require ¬ (addr ≥ u.sz ∨ (addr + 4) % UINTS > u.sz)
  Access.touch (bytes addr 4)
  return u.word addr

/-- The loop of `fetchstr` with `k` bytes to go: the address of the NUL. -/
def scan : ℕ → ℕ → Access ℕ
  | 0, _ => Access.fail
  | k + 1, s => do
    Access.touch [s]
    if u.mem s = 0 then return s else scan k (s + 1)

/-- `fetchstr`: the pointer and the length. -/
def fetchstr (addr : ℕ) : Access (ℕ × ℕ) := do
  Access.require ¬ addr ≥ u.sz
  let s ← u.scan (u.sz - addr) addr
  return (addr, s - addr)

/-- Where the argument `n` is. -/
def argAddr (n : ℕ) : ℕ := (u.esp + 4 + 4 * n) % UINTS

/-- `argint`, as a `uint`. -/
def argint (n : ℕ) : Access ℕ := u.fetchint (u.argAddr n)

/-- `argptr`. -/
def argptr (n : ℕ) (size : ℤ) : Access ℕ := do
  let i ← u.argint n
  Access.require ¬ (size < 0 ∨ i ≥ u.sz ∨ (i + size.toNat) % UINTS > u.sz)
  return i

/-- `argstr`. -/
def argstr (n : ℕ) : Access (ℕ × ℕ) := do
  let addr ← u.argint n
  u.fetchstr addr

/-- `argfd(n, 0, &f)`. -/
def argfd (n : ℕ) : Access OpenFile := do
  let fd ← u.argint n
  if h : 0 ≤ toInt fd ∧ (toInt fd).toNat < 16 then
    match u.ofile ⟨(toInt fd).toNat, h.2⟩ with
    | some f => return f
    | none => Access.fail
  else Access.fail

end User

/-! ## What the callees touch -/

/-- `consoleread`: how many bytes it stores of those it finds. -/
def consoleread : List ℕ → ℕ → ℕ
  | _, 0 => 0
  | [], _ => 0
  | c :: cs, n + 1 => if c = 4 then 0 else if c = 10 then 1 else consoleread cs n + 1

/-- The loop of `readi` and `writei` over the blocks, with `left` bytes to go; `fuel` bounds the
number of blocks. -/
def blocks : ℕ → ℕ → ℕ → ℕ → List ℕ
  | 0, _, _, _ => []
  | fuel + 1, addr, off, left =>
    if left = 0 then []
    else
      let m := min left (512 - off % 512)
      bytes addr m ++ blocks fuel (addr + m) (off + m) (left - m)

/-- `readi`. -/
def readi (t : Target) (dst n : ℕ) : Access ℤ :=
  match t with
  | .device major input => do
    Access.require (major = 1)
    Access.touch (bytes dst (consoleread input n))
    return consoleread input n
  | .inode size off => do
    Access.require ¬ (off > size ∨ (off + n) % UINTS < off)
    let n := if (off + n) % UINTS > size then size - off else n
    Access.touch (blocks n dst off n)
    return n
  | _ => Access.fail

/-- `writei` at the offset `off`. -/
def writei (t : Target) (src off n : ℕ) : Access ℤ :=
  match t with
  | .device major _ => do
    Access.require (major = 1)
    Access.touch (bytes src n)
    return n
  | .inode size _ => do
    Access.require ¬ (off > size ∨ (off + n) % UINTS < off)
    Access.require ¬ (off + n) % UINTS > 140 * 512
    Access.touch (blocks n src off n)
    return n
  | _ => Access.fail

/-- `fileread`. -/
def fileread (f : OpenFile) (addr n : ℕ) : Access ℤ := do
  Access.require (f.readable = true)
  match f.target with
  | .pipe p _ => do
    let k := (readLoop n p).2.length
    Access.touch (bytes addr k)
    return k
  | .memo => Access.fail
  | t => readi t addr n

/-- The bytes that `pipewrite` takes from the user's in its sections. -/
def pipewrite : List (Bool × Pipe) → List ℕ → ℕ
  | [], _ => 0
  | (killed, p) :: ps, bs =>
    let r := writeLoop killed bs p
    match r.2.2 with
    | .sleep bs' => r.2.1.length + pipewrite ps bs'
    | _ => r.2.1.length

/-- The offsets that `strncpy(s, t, n)` reads, from `i` on. -/
def strncpyReads (t : ℕ → Fin 256) : ℕ → ℕ → List ℕ
  | _, 0 => []
  | i, n + 1 => i :: if t i ≠ 0 then strncpyReads t (i + 1) n else []

/-- The size of the file after a write of `n` bytes at `off`. -/
def Target.grow (t : Target) (off n : ℕ) : Target :=
  match t with
  | .inode size _ => .inode (if n > 0 ∧ off + n > size then off + n else size) (off + n)
  | t => t

/-- The loop of `filewrite` over chunks, with `n - i` bytes to go; each round writes at least one
byte, so `fuel = n` rounds are enough. -/
def chunks : ℕ → Target → ℕ → ℕ → ℕ → ℕ → Access ℤ
  | 0, _, _, _, _, n => return n
  | fuel + 1, t, addr, off, i, n =>
    if i < n then do
      let n₁ := if n - i > 1536 then 1536 else n - i
      let r ← writei t (addr + i) off n₁
      chunks fuel (t.grow off n₁) addr (off + r.toNat) (i + r.toNat) n
    else return n

/-- `filewrite`. -/
def filewrite (u : User) (f : OpenFile) (addr n : ℕ) : Access ℤ := do
  Access.require (f.writable = true)
  match f.target with
  | .pipe _ ps => do
    Access.touch (bytes addr (pipewrite ps ((List.range n).map fun i => (u.mem (addr + i)).val)))
    return n
  | .memo => do
    Access.touch ((strncpyReads (fun i => u.mem (addr + i)) 0 n).map fun i => (addr + i) % UINTS)
    return n
  | .device major input => chunks n (.device major input) addr 0 0 n
  | .inode size off => chunks n (.inode size off) addr off 0 n

/-- The fields of `struct stat` that `stati` stores: offsets and sizes. -/
def statFields : List (ℕ × ℕ) := [(4, 4), (8, 4), (0, 2), (12, 2), (16, 4)]

/-- `filestat`. -/
def filestat (f : OpenFile) (st : ℕ) : Access ℤ :=
  match f.target with
  | .device _ _ | .inode _ _ => do
    Access.touch (statFields.flatMap fun fld => bytes (st + fld.1) fld.2)
    return 0
  | _ => Access.fail

/-! ## The handlers -/

/-- `sys_read`. -/
def sysRead (u : User) : Access ℤ := do
  let f ← u.argfd 0
  let n ← u.argint 2
  let p ← u.argptr 1 (toInt n)
  fileread f p n

/-- `sys_write`. -/
def sysWrite (u : User) : Access ℤ := do
  let f ← u.argfd 0
  let n ← u.argint 2
  let p ← u.argptr 1 (toInt n)
  filewrite u f p n

/-- `sys_fstat`. -/
def sysFstat (u : User) : Access ℤ := do
  let f ← u.argfd 0
  let st ← u.argptr 1 20
  filestat f st

/-- `sys_pipe`; `ok` says whether `pipealloc` and `fdalloc` succeed. -/
def sysPipe (ok : Bool) (u : User) : Access ℤ := do
  let fd ← u.argptr 0 8
  Access.require (ok = true)
  Access.touch (bytes fd 4)
  Access.touch (bytes (fd + 4) 4)
  return 0

/-- `sys_getmemo` on a memo page with the bytes `memo` and the `int` `lmemo`. -/
def sysGetmemoAt (memo : ℕ → ℕ) (lmemo : ℤ) (u : User) : Access ℤ := do
  let s ← u.argstr 0
  let path := s.1
  Access.touch ((strncpy memo lmemo.toNat).map fun s => (path + s.1) % UINTS)
  Access.touch [((path + lmemo) % (UINTS : ℤ)).toNat]
  return lmemo

/-- A call that copies from or to the memory of the process. -/
inductive Call
  | read | write | fstat
  | pipe (ok : Bool)
  /-- With the 32 bits of `lmemo`. -/
  | getmemo (memo : ℕ → ℕ) (lmemo : Fin (2 ^ 32))

/-- The addresses it touches, and what it returns. -/
def Call.run : Call → User → Access ℤ
  | .read, u => sysRead u
  | .write, u => sysWrite u
  | .fstat, u => sysFstat u
  | .pipe ok, u => sysPipe ok u
  | .getmemo memo lmemo, u => sysGetmemoAt memo (toInt lmemo) u

end Syscall

end OsPlayground
