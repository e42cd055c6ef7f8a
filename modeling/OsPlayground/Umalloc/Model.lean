import Mathlib.Logic.Function.Basic
import OsPlayground.Vm.Model

/-!
# The allocator of user programs

`malloc`, `free` and `morecore` of `umalloc.c`, with the arithmetic of 32 bits.

* `Heap`: the headers by address, `freep` and the size of the process.
* `freeLoop`, `free`: the search for the place of a block, and its insertion.
* `sbrk`, `morecore`: more memory from the kernel.
* `mallocLoop`, `malloc`: the search for a block that is large enough.

A loop is given a number of rounds that it may take; `Stop.running` says that they were not enough.
-/

namespace OsPlayground

namespace Umalloc

/-- The memory of a process, as far as `malloc` and `free` look at it. -/
structure Heap where
  /-- `s.ptr` and `s.size` of the header at an address. -/
  ptr : ℕ → ℕ
  size : ℕ → ℕ
  freep : ℕ
  /-- `p->sz`: the memory below it is the process's. -/
  brk : ℕ

/-- Why a computation ends without a result: it touches memory that the process does not have, or a
loop goes on. -/
inductive Stop
  | fault
  | running
  deriving DecidableEq

namespace Heap

/-- `p->s.ptr`, a fault above the break. -/
def getPtr (h : Heap) (a : ℕ) : Except Stop ℕ := if a + 8 ≤ h.brk then .ok (h.ptr a) else .error .fault

/-- `p->s.size`. -/
def getSize (h : Heap) (a : ℕ) : Except Stop ℕ := if a + 8 ≤ h.brk then .ok (h.size a) else .error .fault

/-- `p->s.ptr = v`. -/
def setPtr (h : Heap) (a v : ℕ) : Except Stop Heap :=
  if a + 8 ≤ h.brk then .ok { h with ptr := Function.update h.ptr a v } else .error .fault

/-- `p->s.size = v`. -/
def setSize (h : Heap) (a v : ℕ) : Except Stop Heap :=
  if a + 8 ≤ h.brk then .ok { h with size := Function.update h.size a v } else .error .fault

end Heap

/-- `p + n` and `p - 1` for a `Header *p`. -/
def plus (p n : ℕ) : ℕ := (p + 8 * n) % 2 ^ 32

/-- `p - 1`. -/
def minusOne (p : ℕ) : ℕ := (p + 2 ^ 32 - 8) % 2 ^ 32

/-! ## `free` -/

/-- The loop of `free`. -/
def freeLoop (h : Heap) (bp : ℕ) : ℕ → ℕ → Except Stop ℕ
  | 0, _ => .error .running
  | k + 1, p => do
    let next ← h.getPtr p
    if bp > p ∧ bp < next then return p
    else if p ≥ next ∧ (bp > p ∨ bp < next) then return p
    else freeLoop h bp k next

/-- `if(bp + bp->s.size == p->s.ptr)` and its branches. -/
def joinUp (bp p : ℕ) (h : Heap) : Except Stop Heap := do
  let size ← h.getSize bp
  let next ← h.getPtr p
  if plus bp size = next then do
    let more ← h.getSize next
    let h ← h.setSize bp ((size + more) % 2 ^ 32)
    let next ← h.getPtr p
    let after ← h.getPtr next
    h.setPtr bp after
  else h.setPtr bp next

/-- `if(p + p->s.size == bp)` and its branches. -/
def joinDown (bp p : ℕ) (h : Heap) : Except Stop Heap := do
  let size ← h.getSize p
  if plus p size = bp then do
    let more ← h.getSize bp
    let h ← h.setSize p ((size + more) % 2 ^ 32)
    let next ← h.getPtr bp
    h.setPtr p next
  else h.setPtr p bp

/-- `free`. -/
def free (rounds ap : ℕ) (h : Heap) : Except Stop Heap := do
  let bp := minusOne ap
  let p ← freeLoop h bp rounds h.freep
  let h ← joinUp bp p h
  let h ← joinDown bp p h
  return { h with freep := p }

/-! ## `malloc` -/

/-- `sbrk`: the size of the process after it, if it does not return -1. The kernel reads `n` as an
`int`; `granted` says whether it has the memory. -/
def sbrk (granted : Bool) (n brk : ℕ) : Option ℕ :=
  let newsz := (brk + n) % 2 ^ 32
  if n = 0 then some brk
  else if n < 2 ^ 31 then
    -- `allocuvm`
    if newsz ≥ KERNBASE - MAXSHAREDPG * PGSIZE then none
    else if newsz < brk then (if brk = 0 then none else some brk)
    else if granted then some newsz else none
  else
    -- `deallocuvm`
    let sz := if newsz ≥ brk then brk else newsz
    if sz = 0 then none else some sz

/-- `morecore`; the null pointer is 0. -/
def morecore (rounds : ℕ) (granted : Bool) (nu : ℕ) (h : Heap) : Except Stop (ℕ × Heap) :=
  let nu := if nu < 4096 then 4096 else nu
  match sbrk granted (nu * 8 % 2 ^ 32) h.brk with
  | none => .ok (0, h)
  | some brk => do
    let hp := h.brk
    let h ← { h with brk := brk }.setSize hp nu
    let h ← free rounds (plus hp 1) h
    return (h.freep, h)

/-- What `malloc` does with a block that is large enough. -/
def take (nunits prevp p : ℕ) (h : Heap) : Except Stop (ℕ × Heap) := do
  let size ← h.getSize p
  if size = nunits then do
    let next ← h.getPtr p
    let h ← h.setPtr prevp next
    return (plus p 1, { h with freep := prevp })
  else do
    let h ← h.setSize p (size - nunits)
    let p := plus p (size - nunits)
    let h ← h.setSize p nunits
    return (plus p 1, { h with freep := prevp })

/-- The loop of `malloc`. -/
def mallocLoop (rounds : ℕ) (granted : ℕ → Bool) (nunits : ℕ) : ℕ → ℕ → Heap → Except Stop (ℕ × Heap)
  | 0, _, _ => .error .running
  | k + 1, prevp, h => do
    let p ← h.getPtr prevp
    let size ← h.getSize p
    if size ≥ nunits then take nunits prevp p h
    else if p = h.freep then do
      let x ← morecore rounds (granted k) nunits h
      if x.1 = 0 then return (0, x.2)
      else mallocLoop rounds granted nunits k x.1 x.2
    else mallocLoop rounds granted nunits k p h

/-- The number of units for a request. -/
def unitsFor (nbytes : ℕ) : ℕ := (nbytes + 7) % 2 ^ 32 / 8 + 1

/-- `malloc`, with the address of `base`. -/
def malloc (base rounds : ℕ) (granted : ℕ → Bool) (nbytes : ℕ) (h : Heap) : Except Stop (ℕ × Heap) :=
  if h.freep = 0 then do
    let h ← h.setPtr base base
    let h ← { h with freep := base }.setSize base 0
    mallocLoop rounds granted (unitsFor nbytes) rounds base h
  else mallocLoop rounds granted (unitsFor nbytes) rounds h.freep h

end Umalloc

end OsPlayground
