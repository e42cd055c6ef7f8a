import Mathlib.Data.Nat.Notation
import Mathlib.Logic.Function.Basic
import OsPlayground.Proc.Model

/-!
# Physical frames and page tables

`kalloc.c` and `vm.c`, with physical pages and virtual pages by number: the page at address `a` has
number `a / PGSIZE`.

* `Kmem`, `kalloc`, `kfree`: the free list, with what is in the frames.
* `Pgdir`, `walkpgdir`, `mappages`, `setupkvm`, `allocuvm`, `deallocuvm`, `freevm`, `copyuvm`,
  `inituvm`, `clearpteu`: a page directory with its page-table pages, and the functions on it.

A page directory or page-table page is its frame with its entries; an absent entry is `none`, since
no function stores an entry that is neither zero nor present. A kernel panic is an error.
-/

namespace OsPlayground

abbrev PGSIZE : ℕ := 4096
abbrev NPDENTRIES : ℕ := 1024
abbrev NPTENTRIES : ℕ := 1024
abbrev EXTMEM : ℕ := 0x100000
abbrev PHYSTOP : ℕ := 0xE000000
abbrev DEVSPACE : ℕ := 0xFE000000
abbrev KERNBASE : ℕ := 0x80000000
abbrev KERNLINK : ℕ := KERNBASE + EXTMEM

/-- The symbols `data` and `end`, where the linked kernel has them. -/
abbrev kernelData : ℕ := 0x80109000
abbrev kernelEnd : ℕ := 0x8011fc88

/-- The first page of the window of shared pages: user memory ends below it. -/
@[irreducible] def WINPAGE : ℕ := KERNBASE / PGSIZE - MAXSHAREDPG

/-- The window page of the index `idx`, `KERNBASE-(idx+1)*PGSIZE`. -/
def winPage (idx : ℕ) : ℕ := KERNBASE / PGSIZE - (idx + 1)

/-- `PGROUNDUP(sz)`. -/
def PGROUNDUP (sz : ℕ) : ℕ := (sz + PGSIZE - 1) / PGSIZE * PGSIZE

/-- A physical page number. -/
abbrev Frame := ℕ

abbrev Panic := String

/-! ## The allocator -/

/-- `kmem`, and the contents of the frames. -/
structure Kmem where
  freelist : List Frame
  /-- The bytes of the frames. -/
  mem : Frame → ℕ → ℕ

namespace Kmem

/-- `memset(P2V(f), b, PGSIZE)`. -/
def memset (f : Frame) (b : ℕ) (m : Kmem) : Kmem :=
  ⟨m.freelist, Function.update m.mem f fun _ => b⟩

/-- `memmove(P2V(dst), P2V(src), PGSIZE)`. -/
def memmove (dst src : Frame) (m : Kmem) : Kmem :=
  ⟨m.freelist, Function.update m.mem dst (m.mem src)⟩

end Kmem

/-- The check of `kfree`: not below `end`, and below `PHYSTOP`. -/
def kfreeOk (f : Frame) : Prop := kernelEnd ≤ KERNBASE + f * PGSIZE ∧ f * PGSIZE < PHYSTOP

instance (f : Frame) : Decidable (kfreeOk f) := inferInstanceAs (Decidable (_ ∧ _))

/-- `kfree`. -/
def kfree (f : Frame) (m : Kmem) : Except Panic Kmem :=
  if kfreeOk f then .ok { m.memset f 1 with freelist := f :: m.freelist } else .error "kfree"

/-- `kalloc`. -/
def kalloc (m : Kmem) : Kmem × Option Frame :=
  match m.freelist with
  | [] => (m, none)
  | f :: l => ({ m with freelist := l }, some f)

/-! ## Page tables -/

/-- A present page-table entry, with `PTE_W` and `PTE_U`. -/
structure Pte where
  frame : Frame
  w : Bool
  u : Bool

/-- A page table. -/
structure PgTab where
  frame : Frame
  pte : ℕ → Option Pte

/-- A page directory, with the tables that its entries point to. -/
structure Pgdir where
  frame : Frame
  pde : ℕ → Option PgTab

namespace Pgdir

/-- `pgdir[i] = ...`. -/
def setPde (d : Pgdir) (i : ℕ) (tab : PgTab) : Pgdir :=
  { d with pde := Function.update d.pde i (some tab) }

/-- `*pte = e`, for the entry of the page `v` in the page table `tab` that `walkpgdir` found. -/
def setPte (d : Pgdir) (v : ℕ) (tab : PgTab) (e : Option Pte) : Pgdir :=
  d.setPde (v / NPTENTRIES) { tab with pte := Function.update tab.pte (v % NPTENTRIES) e }

end Pgdir

/-- `walkpgdir`: the page table with the entry of the page `v`. -/
def walkpgdir (d : Pgdir) (v : ℕ) (alloc : Bool) (m : Kmem) : Kmem × Pgdir × Option PgTab :=
  match d.pde (v / NPTENTRIES) with
  | some tab => (m, d, some tab)
  | none =>
    if alloc then
      match kalloc m with
      | (m, none) => (m, d, none)
      | (m, some f) => (m.memset f 0, d.setPde (v / NPTENTRIES) ⟨f, fun _ => none⟩,
          some ⟨f, fun _ => none⟩)
    else (m, d, none)

/-- The loop of `mappages`: `n` pages from `v` to the frames from `f`. -/
def mapLoop (w u : Bool) : ℕ → ℕ → Frame → Pgdir → Kmem → Except Panic (Kmem × Pgdir × Bool)
  | 0, _, _, d, m => .ok (m, d, true)
  | n + 1, v, f, d, m =>
    match walkpgdir d v true m with
    | (m, d, none) => .ok (m, d, false)
    | (m, d, some tab) =>
      if (tab.pte (v % NPTENTRIES)).isSome then .error "remap"
      else mapLoop w u n (v + 1) (f + 1) (d.setPte v tab (some ⟨f, w, u⟩)) m

/-- `mappages`; the flag says whether it returned 0. No call wraps around the address space. -/
def mappages (d : Pgdir) (va size pa : ℕ) (w u : Bool) (m : Kmem) :
    Except Panic (Kmem × Pgdir × Bool) :=
  mapLoop w u ((va + size - 1) / PGSIZE - va / PGSIZE + 1) (va / PGSIZE) (pa / PGSIZE) d m

/-- The loop of `deallocuvm` from the page `v`. Each round moves on, so as many rounds as there are
pages below `oldsz` are enough. -/
def deallocLoop (oldsz : ℕ) : ℕ → ℕ → Pgdir → Kmem → Except Panic (Kmem × Pgdir)
  | 0, _, d, m => .ok (m, d)
  | n + 1, v, d, m =>
    if v * PGSIZE < oldsz then
      match d.pde (v / NPTENTRIES) with
      | none => deallocLoop oldsz n ((v / NPTENTRIES + 1) * NPTENTRIES) d m
      | some tab =>
        match tab.pte (v % NPTENTRIES) with
        | none => deallocLoop oldsz n (v + 1) d m
        | some e =>
          if e.frame = 0 then .error "kfree"
          else
            match kfree e.frame m with
            | .error s => .error s
            | .ok m => deallocLoop oldsz n (v + 1) (d.setPte v tab none) m
    else .ok (m, d)

/-- `deallocuvm`, with the size it returns. -/
def deallocuvm (d : Pgdir) (oldsz newsz : ℕ) (m : Kmem) : Except Panic (Kmem × Pgdir × ℕ) :=
  if oldsz ≤ newsz then .ok (m, d, oldsz)
  else
    match deallocLoop oldsz (oldsz / PGSIZE + 1) (PGROUNDUP newsz / PGSIZE) d m with
    | .error s => .error s
    | .ok (m, d) => .ok (m, d, newsz)

/-- The second loop of `freevm`, from the directory entry `i`: `n` entries. -/
def freeTables (d : Pgdir) : ℕ → ℕ → Kmem → Except Panic Kmem
  | 0, _, m => .ok m
  | n + 1, i, m =>
    match d.pde i with
    | none => freeTables d n (i + 1) m
    | some tab =>
      match kfree tab.frame m with
      | .error s => .error s
      | .ok m => freeTables d n (i + 1) m

/-- `freevm` of a page directory that is there. -/
def freevm (d : Pgdir) (m : Kmem) : Except Panic Kmem :=
  match deallocuvm d (WINPAGE * PGSIZE) 0 m with
  | .error s => .error s
  | .ok (m, d, _) =>
    match freeTables d NPDENTRIES 0 m with
    | .error s => .error s
    | .ok m => kfree d.frame m

/-- `struct kmap`. -/
structure Kmap where
  virt : ℕ
  physStart : ℕ
  physEnd : ℕ
  w : Bool

/-- The kernel's mappings. -/
def kmap : List Kmap := [
  ⟨KERNBASE, 0, EXTMEM, true⟩,
  ⟨KERNLINK, KERNLINK - KERNBASE, kernelData - KERNBASE, false⟩,
  ⟨kernelData, kernelData - KERNBASE, PHYSTOP, true⟩,
  ⟨DEVSPACE, DEVSPACE, 0, true⟩]

/-- `phys_end - phys_start`, an unsigned difference. -/
def Kmap.size (k : Kmap) : ℕ := (BitVec.ofNat 32 k.physEnd - BitVec.ofNat 32 k.physStart).toNat

/-- The loop of `setupkvm`. -/
def setupLoop : List Kmap → Pgdir → Kmem → Except Panic (Kmem × Pgdir × Bool)
  | [], d, m => .ok (m, d, true)
  | k :: ks, d, m =>
    match mappages d k.virt k.size k.physStart k.w false m with
    | .error s => .error s
    | .ok (m, d, false) => .ok (m, d, false)
    | .ok (m, d, true) => setupLoop ks d m

/-- `setupkvm`. -/
def setupkvm (m : Kmem) : Except Panic (Kmem × Option Pgdir) :=
  match kalloc m with
  | (m, none) => .ok (m, none)
  | (m, some f) =>
    if DEVSPACE < KERNBASE + PHYSTOP then .error "PHYSTOP too high"
    else
      match setupLoop kmap ⟨f, fun _ => none⟩ (m.memset f 0) with
      | .error s => .error s
      | .ok (m, d, true) => .ok (m, some d)
      | .ok (m, d, false) =>
        match freevm d m with
        | .error s => .error s
        | .ok m => .ok (m, none)

/-- `inituvm`. It checks neither `kalloc` nor `mappages`: writing to a null page is a fault. -/
def inituvm (d : Pgdir) (init : ℕ → ℕ) (sz : ℕ) (m : Kmem) : Except Panic (Kmem × Pgdir) :=
  if PGSIZE ≤ sz then .error "inituvm: more than a page"
  else
    match kalloc m with
    | (_, none) => .error "page fault"
    | (m, some f) =>
      match mappages d 0 PGSIZE (f * PGSIZE) true true (m.memset f 0) with
      | .error s => .error s
      | .ok (m, d, _) =>
        .ok (⟨m.freelist, Function.update m.mem f fun i => if i < sz then init i else m.mem f i⟩, d)

/-- The loop of `allocuvm` from the page `v`, with the size returned. -/
def allocLoop (oldsz newsz : ℕ) : ℕ → ℕ → Pgdir → Kmem → Except Panic (Kmem × Pgdir × ℕ)
  | 0, _, d, m => .ok (m, d, newsz)
  | n + 1, v, d, m =>
    if v * PGSIZE < newsz then
      match kalloc m with
      | (m, none) =>
        match deallocuvm d newsz oldsz m with
        | .error s => .error s
        | .ok (m, d, _) => .ok (m, d, 0)
      | (m, some f) =>
        match mappages d (v * PGSIZE) PGSIZE (f * PGSIZE) true true (m.memset f 0) with
        | .error s => .error s
        | .ok (m, d, true) => allocLoop oldsz newsz n (v + 1) d m
        | .ok (m, d, false) =>
          match deallocuvm d newsz oldsz m with
          | .error s => .error s
          | .ok (m, d, _) =>
            match kfree f m with
            | .error s => .error s
            | .ok m => .ok (m, d, 0)
    else .ok (m, d, newsz)

/-- `allocuvm`. -/
def allocuvm (d : Pgdir) (oldsz newsz : ℕ) (m : Kmem) : Except Panic (Kmem × Pgdir × ℕ) :=
  if WINPAGE * PGSIZE ≤ newsz then .ok (m, d, 0)
  else if newsz < oldsz then .ok (m, d, oldsz)
  else allocLoop oldsz newsz (newsz / PGSIZE + 1) (PGROUNDUP oldsz / PGSIZE) d m

/-- `clearpteu` on the page `v`. -/
def clearpteu (d : Pgdir) (v : ℕ) : Except Panic Pgdir :=
  match d.pde (v / NPTENTRIES) with
  | none => .error "clearpteu"
  | some tab =>
    .ok (d.setPte v tab ((tab.pte (v % NPTENTRIES)).map fun e => { e with u := false }))

/-- `bad:` of `copyuvm`. -/
def copyBad (d : Pgdir) (m : Kmem) : Except Panic (Kmem × Option Pgdir) :=
  match freevm d m with
  | .error s => .error s
  | .ok m => .ok (m, none)

/-- The loop of `copyuvm` from the page `v`: `pgdir` is the parent's directory, `d` the copy. A frame
that cannot be mapped is not freed. -/
def copyLoop (pgdir : Pgdir) (sz : ℕ) : ℕ → ℕ → Pgdir → Kmem → Except Panic (Kmem × Option Pgdir)
  | 0, _, d, m => .ok (m, some d)
  | n + 1, v, d, m =>
    if v * PGSIZE < sz then
      match pgdir.pde (v / NPTENTRIES) with
      | none => .error "copyuvm: pte should exist"
      | some tab =>
        match tab.pte (v % NPTENTRIES) with
        | none => .error "copyuvm: page not present"
        | some e =>
          match kalloc m with
          | (m, none) => copyBad d m
          | (m, some f) =>
            match mappages d (v * PGSIZE) PGSIZE (f * PGSIZE) e.w e.u (m.memmove f e.frame) with
            | .error s => .error s
            | .ok (m, d, true) => copyLoop pgdir sz n (v + 1) d m
            | .ok (m, d, false) => copyBad d m
    else .ok (m, some d)

/-- `copyuvm`. -/
def copyuvm (pgdir : Pgdir) (sz : ℕ) (m : Kmem) : Except Panic (Kmem × Option Pgdir) :=
  match setupkvm m with
  | .error s => .error s
  | .ok (m, none) => .ok (m, none)
  | .ok (m, some d) => copyLoop pgdir sz (sz / PGSIZE + 1) 0 d m

end OsPlayground
