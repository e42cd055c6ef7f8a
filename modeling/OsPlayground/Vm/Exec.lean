import OsPlayground.Lib.Words
import OsPlayground.Vm.Copyout

/-!
# `exec`

* `loaduvm`, `loadLoop`, `pushArgs`, `exec`: as the code does it. What `namei` finds and what each call
  of `readi` returns and stores is arbitrary; `copyout` fails where there is no user page.
* `Loaded`, `Stack`: the new memory with the program, and with the stack.
* `Unchanged`, `Started`: what `exec` should leave when it returns -1, or 0.
* **`exec_commits`**: it does, from every state.
-/

namespace OsPlayground

open Lib Finset

/-! ## The code -/

abbrev ELF_MAGIC : ℕ := 0x464C457F
abbrev ELF_PROG_LOAD : ℕ := 1
abbrev MAXARG : ℕ := 32

/-- `sizeof(struct elfhdr)` and `sizeof(struct proghdr)`. -/
abbrev ELFHDRSIZE : ℕ := 52
abbrev PROGHDRSIZE : ℕ := 32

/-- The file at the path. -/
structure ExecFile where
  /-- `namei` finds it. -/
  found : Bool
  /-- What the call number `k` of `readi` with an offset and a length returns, and the bytes that it
  stores: no more than the length. -/
  readi : ℕ → ℕ → ℕ → ℤ × List ℕ

/-- Bytes as `readi` stores them. -/
def stored (bs : List ℕ) : Bytes := fun i => bs.getD i 0 % 256

/-- A string with its NUL. -/
def cstring (a : List ℕ) : Bytes := fun i => a.getD i 0

/-- What `exec` reads and writes. -/
structure ExecState where
  kmem : Kmem
  /-- The number of calls of `begin_op` and `end_op`. -/
  begun : ℕ
  ended : ℕ
  /-- `ip->ref`. -/
  ref : ℕ
  pgdir : Pgdir
  sz : ℕ
  name : List ℕ
  eip : ℕ
  esp : ℕ

/-- The loop of `loaduvm` from the page `i` of the segment, after `k` calls of `readi`. -/
def loadPages (x : ExecFile) (d : Pgdir) (va off sz : ℕ) :
    ℕ → ℕ → Kmem → ℕ → Except Panic (Kmem × ℕ × Bool)
  | 0, _, m, k => .ok (m, k, true)
  | n + 1, i, m, k =>
    if i * PGSIZE < sz then
      match d.pde (addr va (i * PGSIZE) / PGSIZE / NPTENTRIES) with
      | none => .error "loaduvm: address should exist"
      | some tab =>
        let pa := (tab.pte (addr va (i * PGSIZE) / PGSIZE % NPTENTRIES)).elim 0 Pte.frame
        let len := min (sz - i * PGSIZE) PGSIZE
        let (r, bs) := x.readi k (addr off (i * PGSIZE)) len
        let m := m.write pa 0 (min bs.length len) (stored bs)
        if r = len then loadPages x d va off sz n (i + 1) m (k + 1) else .ok (m, k + 1, false)
    else .ok (m, k, true)

/-- `loaduvm`; the flag says whether it returned 0. -/
def loaduvm (x : ExecFile) (d : Pgdir) (va off sz : ℕ) (m : Kmem) (k : ℕ) :
    Except Panic (Kmem × ℕ × Bool) :=
  if va % PGSIZE ≠ 0 then .error "loaduvm: addr must be page aligned"
  else loadPages x d va off sz (sz / PGSIZE + 1) 0 m k

/-- The program header at `off`. It ends with the size and the number of calls of `readi`, or at
`bad`. -/
def loadSegment (x : ExecFile) (off : ℕ) (d : Pgdir) (sz : ℕ) (m : Kmem) (k : ℕ) :
    Except Panic (Kmem × Pgdir × Option (ℕ × ℕ)) :=
  let (r, bs) := x.readi k off PROGHDRSIZE
  let ph := stored bs
  let filesz := getLE ph 16 4
  let memsz := getLE ph 20 4
  let vaddr := getLE ph 8 4
  if r ≠ PROGHDRSIZE then .ok (m, d, none)
  else if getLE ph 0 4 ≠ ELF_PROG_LOAD then .ok (m, d, some (sz, k + 1))
  else if memsz < filesz then .ok (m, d, none)
  else if addr vaddr memsz < vaddr then .ok (m, d, none)
  else
    match allocuvm d sz (addr vaddr memsz) m with
    | .error s => .error s
    | .ok (m, d, sz) =>
      if sz = 0 then .ok (m, d, none)
      else if vaddr % PGSIZE ≠ 0 then .ok (m, d, none)
      else
        match loaduvm x d vaddr (getLE ph 4 4) filesz m (k + 1) with
        | .error s => .error s
        | .ok (m, _, false) => .ok (m, d, none)
        | .ok (m, k, true) => .ok (m, d, some (sz, k))

/-- The loop over the program headers: `n` more from `off`. It ends with the size, or at `bad`. -/
def loadLoop (x : ExecFile) : ℕ → ℕ → Pgdir → ℕ → Kmem → ℕ → Except Panic (Kmem × Pgdir × Option ℕ)
  | 0, _, d, sz, m, _ => .ok (m, d, some sz)
  | n + 1, off, d, sz, m, k =>
    match loadSegment x off d sz m k with
    | .error s => .error s
    | .ok (m, d, none) => .ok (m, d, none)
    | .ok (m, d, some (sz, k)) => loadLoop x n (addr off PROGHDRSIZE) d sz m k

/-- `copyout` that fails on every page that is not a user page. -/
def copyoutUser (d : Pgdir) (va : ℕ) (p : ℕ → ℕ) (len : ℕ) (m : Kmem) : Kmem × Bool :=
  match copyout d va p len m with
  | .error _ => (m, false)
  | .ok (m, r) => (m, decide (r = 0))

/-- `sp - n` of unsigned words. -/
@[irreducible] def spSub (sp n : ℕ) : ℕ := (sp + ADDRS - n % ADDRS) % ADDRS

/-- The loop over `argv`. `ptrs` are the pointers in `ustack` so far; it ends with `sp` and all of them,
or at `bad`. -/
def pushArgs (d : Pgdir) : List (List ℕ) → ℕ → List ℕ → Kmem → Kmem × Option (ℕ × List ℕ)
  | [], sp, ptrs, m => (m, some (sp, ptrs))
  | a :: argv, sp, ptrs, m =>
    if MAXARG ≤ ptrs.length then (m, none)
    else
      -- `& ~3`
      let sp := spSub sp (a.length + 1) / 4 * 4
      match copyoutUser d sp (cstring a) (a.length + 1) m with
      | (m, false) => (m, none)
      | (m, true) => pushArgs d argv sp (ptrs ++ [sp]) m

/-- `ustack` when the strings are on the stack and `sp` is below them. -/
def ustack (sp : ℕ) (ptrs : List ℕ) : List ℕ :=
  [0xffffffff, ptrs.length, spSub sp ((ptrs.length + 1) * 4)] ++ ptrs ++ [0]

/-- The bytes of words. -/
def wordBytes (ws : List ℕ) : Bytes := fun i => byteOf (ws.getD (i / 4) 0) (i % 4)

/-- The name after the last `/`: the loop over `path` with `last`. -/
def lastElem : List ℕ → List ℕ → List ℕ
  | [], last => last
  | c :: s, last => lastElem s (if c = 47 then s else last)

/-- From the stack on, for a program of `sz` bytes: the size and `esp`, or `bad`. -/
def buildStack (d : Pgdir) (sz : ℕ) (argv : List (List ℕ)) (m : Kmem) :
    Except Panic (Kmem × Pgdir × Option (ℕ × ℕ)) :=
  match allocuvm d (PGROUNDUP sz) (PGROUNDUP sz + 2 * PGSIZE) m with
  | .error s => .error s
  | .ok (m, d, sz) =>
    if sz = 0 then .ok (m, d, none)
    else
      match clearpteu d ((sz - 2 * PGSIZE) / PGSIZE) with
      | .error s => .error s
      | .ok d =>
        match pushArgs d argv sz [] m with
        | (m, none) => .ok (m, d, none)
        | (m, some (sp, ptrs)) =>
          let esp := spSub sp ((3 + ptrs.length + 1) * 4)
          match copyoutUser d esp (wordBytes (ustack sp ptrs)) ((3 + ptrs.length + 1) * 4) m with
          | (m, false) => .ok (m, d, none)
          | (m, true) => .ok (m, d, some (sz, esp))

namespace ExecState

/-- `bad:` with `pgdir` set; `ip` says whether the inode is still held. -/
def bad (d : Pgdir) (ip : Bool) (m : Kmem) (s : ExecState) : Except Panic (ExecState × ℤ) :=
  match freevm d m with
  | .error e => .error e
  | .ok m =>
    if ip then .ok ({ s with kmem := m, ref := s.ref - 1, ended := s.ended + 1 }, -1)
    else .ok ({ s with kmem := m }, -1)

/-- `exec`. -/
def exec (x : ExecFile) (path : List ℕ) (argv : List (List ℕ)) (s : ExecState) :
    Except Panic (ExecState × ℤ) :=
  let s := { s with begun := s.begun + 1 }
  if x.found = false then .ok ({ s with ended := s.ended + 1 }, -1)
  else
    let s := { s with ref := s.ref + 1 }
    let (r, bs) := x.readi 0 0 ELFHDRSIZE
    if r ≠ ELFHDRSIZE ∨ getLE (stored bs) 0 4 ≠ ELF_MAGIC then
      .ok ({ s with ref := s.ref - 1, ended := s.ended + 1 }, -1)
    else
      match setupkvm s.kmem with
      | .error e => .error e
      | .ok (m, none) => .ok ({ s with kmem := m, ref := s.ref - 1, ended := s.ended + 1 }, -1)
      | .ok (m, some d) =>
        match loadLoop x (getLE (stored bs) 44 2) (getLE (stored bs) 28 4) d 0 m 1 with
        | .error e => .error e
        | .ok (m, d, none) => s.bad d true m
        | .ok (m, d, some sz) =>
          let s := { s with ref := s.ref - 1, ended := s.ended + 1 }
          match buildStack d sz argv m with
          | .error e => .error e
          | .ok (m, d, none) => s.bad d false m
          | .ok (m, d, some (sz, esp)) =>
            match freevm s.pgdir m with
            | .error e => .error e
            | .ok m =>
              .ok ({ s with kmem := m, pgdir := d, sz := sz, name := (lastElem path path).take 15
                            eip := getLE (stored bs) 24 4, esp := esp }, 0)

end ExecState

/-! ## The new memory -/

/-- The directory `d` has taken its frames from the free ones of `m₀`, and no other frame was
written. -/
structure Spare (m₀ m : Kmem) (d : Pgdir) : Prop where
  free : m.free + d.frames = m₀.free
  mem : ∀ f ∉ m₀.free, m.mem f = m₀.mem f

/-- The same, with user memory of `sz` bytes. -/
structure Loaded (m₀ m : Kmem) (d : Pgdir) (sz : ℕ) : Prop extends Spare m₀ m d where
  size : sz < WINPAGE * PGSIZE
  mapped : ∀ v < WINPAGE, (d.lookup v).isSome ↔ v * PGSIZE < sz
  kernel : ∀ v e, WINPAGE ≤ v → d.lookup v = some e → e.u = false

theorem NewKernel.loaded {m₀ m : Kmem} {d : Pgdir} (h : NewKernel m₀ m d) : Loaded m₀ m d 0 where
  free := h.free
  mem := h.taken.mem
  size := by
    rw [winpage_bytes]
    norm_num
  mapped v hv := by
    rw [h.lookup v (hv.trans_le winpage_le)]
    exact iff_of_false Bool.false_ne_true (Nat.not_lt_zero _)
  kernel v e _ := h.kernel v e

section Load

variable {m₀ m m' : Kmem} {d d' : Pgdir} {x : ExecFile} {f : Frame} {e : Pte}
  {v va o sz newsz n i k len fsz : ℕ} {p : ℕ → ℕ}

theorem Spare.frames_le (h : Spare m₀ m d) : d.frames ≤ m₀.free :=
  h.free ▸ Multiset.le_add_left _ _

theorem Spare.valid (hv : Valid m₀.free) (h : Spare m₀ m d) : Valid (m.free + d.frames) :=
  h.free ▸ hv

theorem Spare.not_mem (h : Spare m₀ m d) (hf : f ∉ m₀.free) : f ∉ m.free := fun hm =>
  hf (Multiset.mem_of_le (h.free ▸ Multiset.le_add_right _ _) hm)

theorem Spare.apart (hv : Valid m₀.free) (h : Spare m₀ m d)
    (hk : ∀ v e, WINPAGE ≤ v → d.lookup v = some e → e.u = false) : Apart d := by
  have hnodup : d.user.Nodup := by
    have hframes := Multiset.nodup_of_le h.frames_le hv.nodup
    exact (Multiset.nodup_add.1 hframes).2.1
  exact ⟨hk, fun v hv v' hv' e e' he he' hf => frames_of_nodup hnodup hv hv' he he' hf⟩

theorem Spare.write (h : Spare m₀ m d) (hf : f ∈ d.frames) :
    Spare m₀ (m.write f o len p) d := by
  refine ⟨h.free, fun g hg => ?_⟩
  have hne : g ≠ f := fun he => hg (he ▸ Multiset.mem_of_le h.frames_le hf)
  exact (Function.update_of_ne hne _ _).trans (h.mem g hg)

theorem Loaded.write (h : Loaded m₀ m d sz) (hf : f ∈ d.frames) :
    Loaded m₀ (m.write f o len p) d sz :=
  ⟨h.toSpare.write hf, h.size, h.mapped, h.kernel⟩

/-- **`loaduvm`** writes only to pages of the program. -/
theorem loadPages_spec (h : Loaded m₀ m d sz)
    (hin : ∀ i, i * PGSIZE < fsz → addr va (i * PGSIZE) < sz) :
    ∃ m' k' b, loadPages x d va o fsz n i m k = .ok (m', k', b) ∧ Loaded m₀ m' d sz := by
  induction n generalizing i m k with
  | zero => exact ⟨m, k, true, rfl, h⟩
  | succ n ih =>
    unfold loadPages
    by_cases hlt : i * PGSIZE < fsz
    swap
    · rw [if_neg hlt]
      exact ⟨m, k, true, rfl, h⟩
    rw [if_pos hlt]
    have hpage : addr va (i * PGSIZE) / PGSIZE * PGSIZE < sz :=
      (Nat.div_mul_le_self _ _).trans_lt (hin i hlt)
    have hw := lt_winpage h.size.le hpage
    obtain ⟨e, he⟩ := Option.isSome_iff_exists.1 ((h.mapped _ hw).2 hpage)
    obtain ⟨tab, htab, hpte⟩ := Option.bind_eq_some_iff.1 he
    rw [htab]
    dsimp only
    rw [hpte, Option.elim_some]
    have hf : e.frame ∈ d.frames := mem_frames.2 (Or.inr (Or.inr (mem_user hw he)))
    rcases x.readi k (addr o (i * PGSIZE)) (min (fsz - i * PGSIZE) PGSIZE) with ⟨r, bs⟩
    split_ifs
    · exact ih (h.write hf)
    · exact ⟨_, _, _, rfl, h.write hf⟩

theorem Loaded.extended (h : Loaded m₀ m d sz) (hle : sz ≤ newsz) (hsz : newsz < WINPAGE * PGSIZE)
    (hx : Extended (pages sz) newsz m m' d d') : Loaded m₀ m' d' newsz where
  free := hx.conserved.trans h.free
  mem f hf := (hx.taken.mem f (h.not_mem hf)).trans (h.mem f hf)
  size := hsz
  mapped v hv := by
    by_cases hin : pages sz ≤ v ∧ v * PGSIZE < newsz
    · obtain ⟨f, -, hl, -⟩ := hx.fresh v hin.1 hin.2
      rw [hl]
      exact iff_of_true rfl hin.2
    · rw [hx.lookup v hin, h.mapped v hv]
      have hpages : v < pages sz ↔ v * PGSIZE < sz := lt_pages
      omega
  kernel v e hv he := by
    rw [hx.lookup v fun hin => ?_] at he
    · exact h.kernel v e hv he
    · have := lt_winpage hsz.le hin.2
      omega

/-- **`allocuvm`** in `exec`. -/
theorem Loaded.allocuvm (hv : Valid m₀.free) (h : Loaded m₀ m d sz) (newsz : ℕ) :
    (∃ m' d', allocuvm d sz newsz m = .ok (m', d', 0) ∧ Spare m₀ m' d') ∨
      ∃ m' d' sz', allocuvm d sz newsz m = .ok (m', d', sz') ∧ Loaded m₀ m' d' sz' ∧ newsz ≤ sz' ∧
        (sz ≤ newsz → sz' = newsz ∧ Extended (pages sz) newsz m m' d d') := by
  unfold OsPlayground.allocuvm
  by_cases hbig : WINPAGE * PGSIZE ≤ newsz
  · rw [if_pos hbig]
    exact Or.inl ⟨m, d, rfl, h.toSpare⟩
  rw [if_neg hbig]
  by_cases hsmall : newsz < sz
  · rw [if_pos hsmall]
    exact Or.inr ⟨m, d, sz, rfl, h, hsmall.le, fun hle => absurd hsmall hle.not_gt⟩
  rw [if_neg hsmall]
  have hle : sz ≤ newsz := Nat.le_of_not_lt hsmall
  have hlt : newsz < WINPAGE * PGSIZE := Nat.lt_of_not_le hbig
  have hmem : Memory d sz m := ⟨h.size, h.mapped, h.valid hv⟩
  have hnone : ∀ x, pages sz ≤ x → x * PGSIZE < newsz → d.lookup x = none := by
    intro x h₁ h₂
    refine hmem.unmapped (lt_winpage hlt.le h₂) (Nat.le_of_not_lt fun hx => ?_)
    have := lt_pages.2 hx
    omega
  rcases allocLoop_spec hlt (le_fuel _ _ (by decide)) le_rfl hnone hmem.valid with
    ⟨m', d', hloop, hx⟩ | ⟨m', d', hloop, hu⟩
  · exact Or.inr ⟨m', d', newsz, hloop, h.extended hle hlt hx, le_rfl, fun _ => ⟨rfl, hx⟩⟩
  · have hfree := hu.conserved.trans h.free
    refine Or.inl ⟨m', d', hloop, hfree, fun f hf => ?_⟩
    rw [hu.mem f (h.not_mem hf) fun hm => hf (hfree ▸ Multiset.mem_add.2 (Or.inl hm)), h.mem f hf]

/-- **A program header.** -/
theorem loadSegment_spec (hv : Valid m₀.free) (h : Loaded m₀ m d sz) :
    (∃ m' d', loadSegment x o d sz m k = .ok (m', d', none) ∧ Spare m₀ m' d') ∨
      ∃ m' d' sz' k', loadSegment x o d sz m k = .ok (m', d', some (sz', k')) ∧
        Loaded m₀ m' d' sz' := by
  unfold loadSegment
  rcases x.readi k o PROGHDRSIZE with ⟨r, bs⟩
  dsimp only
  by_cases hr : r ≠ PROGHDRSIZE
  · rw [if_pos hr]
    exact Or.inl ⟨m, d, rfl, h.toSpare⟩
  rw [if_neg hr]
  by_cases htype : getLE (stored bs) 0 4 ≠ ELF_PROG_LOAD
  · rw [if_pos htype]
    exact Or.inr ⟨m, d, sz, k + 1, rfl, h⟩
  rw [if_neg htype]
  have hvaddr : getLE (stored bs) 8 4 < ADDRS := getLE_lt fun _ => Nat.mod_lt _ (by decide)
  have hmemsz : getLE (stored bs) 20 4 < ADDRS := getLE_lt fun _ => Nat.mod_lt _ (by decide)
  generalize getLE (stored bs) 8 4 = vaddr at hvaddr ⊢
  generalize getLE (stored bs) 20 4 = memsz at hmemsz ⊢
  generalize getLE (stored bs) 16 4 = filesz
  by_cases hsize : memsz < filesz
  · rw [if_pos hsize]
    exact Or.inl ⟨m, d, rfl, h.toSpare⟩
  rw [if_neg hsize]
  by_cases hwrap : addr vaddr memsz < vaddr
  · rw [if_pos hwrap]
    exact Or.inl ⟨m, d, rfl, h.toSpare⟩
  rw [if_neg hwrap]
  rcases h.allocuvm hv (addr vaddr memsz) with
    ⟨m₁, d₁, halloc, hs⟩ | ⟨m₁, d₁, sz₁, halloc, hl, hle, -⟩
  · rw [halloc]
    exact Or.inl ⟨m₁, d₁, if_pos rfl, hs⟩
  rw [halloc]
  dsimp only
  by_cases hzero : sz₁ = 0
  · rw [if_pos hzero]
    exact Or.inl ⟨m₁, d₁, rfl, hl.toSpare⟩
  rw [if_neg hzero]
  by_cases halign : vaddr % PGSIZE ≠ 0
  · rw [if_pos halign]
    exact Or.inl ⟨m₁, d₁, rfl, hl.toSpare⟩
  rw [if_neg halign, loaduvm, if_neg halign]
  have hin : ∀ i, i * PGSIZE < filesz → addr vaddr (i * PGSIZE) < sz₁ := by
    intro i hi
    refine lt_of_lt_of_le ?_ hle
    simp only [addr, ADDRS] at hwrap hvaddr hmemsz ⊢
    omega
  obtain ⟨m₂, k₂, b, hload, hl₂⟩ := loadPages_spec (x := x) (o := getLE (stored bs) 4 4)
    (n := filesz / PGSIZE + 1) (i := 0) (k := k + 1) hl hin
  rw [hload]
  cases b with
  | false => exact Or.inl ⟨m₂, d₁, rfl, hl₂.toSpare⟩
  | true => exact Or.inr ⟨m₂, d₁, sz₁, k₂, rfl, hl₂⟩

/-- **The loop over the program headers.** -/
theorem loadLoop_spec (hv : Valid m₀.free) (h : Loaded m₀ m d sz) :
    (∃ m' d', loadLoop x n o d sz m k = .ok (m', d', none) ∧ Spare m₀ m' d') ∨
      ∃ m' d' sz', loadLoop x n o d sz m k = .ok (m', d', some sz') ∧ Loaded m₀ m' d' sz' := by
  induction n generalizing o d sz m k with
  | zero => exact Or.inr ⟨m, d, sz, rfl, h⟩
  | succ n ih =>
    unfold loadLoop
    rcases loadSegment_spec (x := x) (o := o) (k := k) hv h with
      ⟨m₁, d₁, hseg, hs⟩ | ⟨m₁, d₁, sz₁, k₁, hseg, hl⟩
    · rw [hseg]
      exact Or.inl ⟨m₁, d₁, rfl, hs⟩
    · rw [hseg]
      exact ih hl

end Load

/-! ## The stack -/

/-- A stack: the page at `base`, on the frame `f`, and a page below it that is not for the user. -/
structure Stack (m₀ m : Kmem) (d : Pgdir) (base : ℕ) (f : Frame) : Prop extends Spare m₀ m d where
  apart : Apart d
  aligned : base % PGSIZE = 0
  low : PGSIZE ≤ base
  high : base + PGSIZE ≤ WINPAGE * PGSIZE
  page : ∃ e, d.lookup (base / PGSIZE) = some e ∧ e.frame = f ∧ e.u = true
  guard : ∃ e, d.lookup (base / PGSIZE - 1) = some e ∧ e.u = false

/-- The string `s` with its NUL is on the frame `f` at `q`, between `lo` and `hi`. -/
structure StringAt (m : Kmem) (f : Frame) (lo hi : ℕ) (s : List ℕ) (q : ℕ) : Prop where
  lo_le : lo ≤ q
  le_hi : q + s.length + 1 ≤ hi
  bytes : ∀ j ≤ s.length, m.mem f ((q + j) % PGSIZE) = s.getD j 0

section Push

variable {m₀ m m' : Kmem} {d d' : Pgdir} {f : Frame} {base sp va len k lo lo' hi : ℕ} {p : ℕ → ℕ}
  {argv : List (List ℕ)} {ptrs : List ℕ} {s : List ℕ} {q : ℕ}

theorem Spare.copied (hd : Apart d) (h : Spare m₀ m d) (huser : ∀ i < k, UserByte d va i)
    (hc : CopiedTo d va p k m m') : Spare m₀ m' d := by
  have hfree : m'.free = m.free := by rw [Kmem.free, hc.freelist, Kmem.free]
  refine ⟨by rw [hfree, h.free], fun g hg => ?_⟩
  rw [← h.mem g hg]
  funext o
  refine hc.other g o ?_
  rintro i hi ⟨e, he, rfl, -⟩
  have hmem : e.frame ∈ d.frames :=
    mem_frames.2 (Or.inr (Or.inr (mem_user (hd.user_lt (huser i hi)) he)))
  exact hg (Multiset.mem_of_le h.frames_le hmem)

/-- A copy that ends where the stack ends so far, or begins far above it, stays in the page or
fails. -/
theorem Stack.inside (hs : Stack m₀ m d base f) (hlen : 0 < len) (hsp : base ≤ sp)
    (hva : va + len ≤ sp ∧ sp < va + len + 4 ∨ WINPAGE * PGSIZE ≤ va ∧ va < ADDRS)
    (huser : ∀ i < len, UserByte d va i) : base ≤ va ∧ va + len ≤ sp := by
  have haligned := hs.aligned
  have hlow := hs.low
  have hhigh := hs.high
  rw [winpage_bytes] at hhigh
  rcases hva with ⟨hle, hlt⟩ | ⟨hge, hlt⟩
  · refine ⟨?_, hle⟩
    by_contra hbelow
    -- one of the last bytes is in the page below
    have hguard : addr va (max va (base - 4) - va) / PGSIZE = base / PGSIZE - 1 := by
      simp only [addr, ADDRS, PGSIZE] at haligned hlow hhigh ⊢
      omega
    obtain ⟨e, he, hu⟩ := huser (max va (base - 4) - va) (by omega)
    obtain ⟨e', he', hu'⟩ := hs.guard
    rw [hguard, he'] at he
    obtain rfl := Option.some.inj he
    rw [hu] at hu'
    cases hu'
  · have hpage := hs.apart.user_lt (huser 0 hlen)
    rw [addr, Nat.add_zero, Nat.mod_eq_of_lt hlt] at hpage
    have := (Nat.div_lt_iff_lt_mul (show 0 < PGSIZE by decide)).1 hpage
    omega

theorem Stack.bytes (hs : Stack m₀ m d base f) (hva : base ≤ va) (hend : va + len ≤ base + PGSIZE)
    (hc : CopiedTo d va p len m m') {a : ℕ} (ha : base ≤ a) (ha' : a < base + PGSIZE) :
    m'.mem f (a % PGSIZE) = if va ≤ a ∧ a < va + len then p (a - va) else m.mem f (a % PGSIZE) := by
  have haligned := hs.aligned
  have hhigh := hs.high
  rw [winpage_bytes] at hhigh
  obtain ⟨e, he, hf, -⟩ := hs.page
  split_ifs with hin
  · refine hc.bytes (a - va) (by omega) f _ ⟨e, ?_, hf, ?_⟩
    · have hpage : addr va (a - va) / PGSIZE = base / PGSIZE := by
        simp only [addr, ADDRS, PGSIZE] at haligned hhigh ha' ⊢
        omega
      rw [hpage, he]
    · simp only [addr, ADDRS, PGSIZE] at hhigh ha' ⊢
      omega
  · refine hc.other f _ ?_
    rintro i hi ⟨e', he', hf', ho⟩
    have hi' : va ≤ va + i := Nat.le_add_right _ _
    simp only [addr, ADDRS, PGSIZE] at haligned hhigh ha' hend ho
    omega

/-- **A copy to the stack** fails, or stays in the page. -/
theorem Stack.copyout (hs : Stack m₀ m d base f) (hlen : 0 < len) (hle : len ≤ ADDRS)
    (hsp : base ≤ sp) (hsp' : sp ≤ base + PGSIZE)
    (hva : va + len ≤ sp ∧ sp < va + len + 4 ∨ WINPAGE * PGSIZE ≤ va ∧ va < ADDRS) (p : ℕ → ℕ) :
    (∃ m', copyoutUser d va p len m = (m', false) ∧ Spare m₀ m' d) ∨
      ∃ m', copyoutUser d va p len m = (m', true) ∧ Stack m₀ m' d base f ∧ base ≤ va ∧ va + len ≤ sp ∧
        ∀ a, base ≤ a → a < base + PGSIZE → m'.mem f (a % PGSIZE) =
          if va ≤ a ∧ a < va + len then p (a - va) else m.mem f (a % PGSIZE) := by
  have hhigh := hs.high
  rw [winpage_bytes] at hhigh
  have hva' : va < ADDRS := by
    simp only [PGSIZE, ADDRS] at hsp' hhigh hva ⊢
    omega
  obtain ⟨k, hk, huser, hor⟩ := copyout_spec (p := p) (m := m) hs.apart hva' hle
  rcases hor with ⟨rfl, m', hc, hto⟩ | ⟨hlt, hbad, ⟨hp, hc⟩ | ⟨hp, m', hc, hto⟩⟩
  · obtain ⟨h₁, h₂⟩ := hs.inside hlen hsp hva huser
    refine Or.inr ⟨m', by rw [copyoutUser, hc]; rfl, ⟨hs.toSpare.copied hs.apart huser hto, hs.apart,
      hs.aligned, hs.low, hs.high, hs.page, hs.guard⟩, h₁, h₂, fun a ha ha' => ?_⟩
    exact hs.bytes h₁ (h₂.trans hsp') hto ha ha'
  · exact Or.inl ⟨m, by rw [copyoutUser, hc], hs.toSpare⟩
  · exact Or.inl ⟨m', by rw [copyoutUser, hc]; rfl, hs.toSpare.copied hs.apart huser hto⟩

theorem spSub_cases (sp len : ℕ) (hsp : sp < WINPAGE * PGSIZE + 1) (hlen : len ≤ 2147483648) :
    spSub sp len + len = sp ∨ WINPAGE * PGSIZE ≤ spSub sp len / 4 * 4 ∧ spSub sp len < ADDRS := by
  rw [winpage_bytes] at hsp ⊢
  simp only [spSub, ADDRS]
  omega

theorem StringAt.mono (h : StringAt m f lo hi s q) (hlo : lo' ≤ lo)
    (hm : ∀ a, lo ≤ a → a < hi → m'.mem f (a % PGSIZE) = m.mem f (a % PGSIZE)) :
    StringAt m' f lo' hi s q where
  lo_le := hlo.trans h.lo_le
  le_hi := h.le_hi
  bytes j hj := by
    have h₁ := h.lo_le
    have h₂ := h.le_hi
    rw [hm _ (by omega) (by omega), h.bytes j hj]

/-- **The strings.** -/
theorem pushArgs_spec (hs : Stack m₀ m d base f) (hsp : base ≤ sp) (hsp' : sp ≤ base + PGSIZE)
    (hptrs : ptrs.length ≤ MAXARG) (hargv : ∀ a ∈ argv, a.length < 2147483648) :
    (∃ m', pushArgs d argv sp ptrs m = (m', none) ∧ Spare m₀ m' d) ∨
      ∃ m' sp' new, pushArgs d argv sp ptrs m = (m', some (sp', ptrs ++ new)) ∧
        Stack m₀ m' d base f ∧ base ≤ sp' ∧ sp' ≤ sp ∧ (ptrs ++ new).length ≤ MAXARG ∧
        List.Forall₂ (StringAt m' f sp' (base + PGSIZE)) argv new ∧
        ∀ a, sp ≤ a → a < base + PGSIZE → m'.mem f (a % PGSIZE) = m.mem f (a % PGSIZE) := by
  induction argv generalizing sp ptrs m with
  | nil =>
    refine Or.inr ⟨m, sp, [], ?_, hs, hsp, le_rfl, ?_, .nil, fun _ _ _ => rfl⟩
    · rw [pushArgs, List.append_nil]
    · rwa [List.append_nil]
  | cons s argv ih =>
    rw [pushArgs]
    by_cases hfull : MAXARG ≤ ptrs.length
    · rw [if_pos hfull]
      exact Or.inl ⟨m, rfl, hs.toSpare⟩
    rw [if_neg hfull]
    dsimp only
    have hslen := hargv s List.mem_cons_self
    have hhigh := hs.high
    have hva : spSub sp (s.length + 1) / 4 * 4 + (s.length + 1) ≤ sp ∧
        sp < spSub sp (s.length + 1) / 4 * 4 + (s.length + 1) + 4 ∨
          WINPAGE * PGSIZE ≤ spSub sp (s.length + 1) / 4 * 4 ∧
            spSub sp (s.length + 1) / 4 * 4 < ADDRS := by
      rcases spSub_cases sp (s.length + 1) (by omega) (by omega) with h | ⟨h, h'⟩
      · left
        omega
      · exact Or.inr ⟨h, (Nat.div_mul_le_self _ _).trans_lt h'⟩
    obtain ⟨sp₁, hsp₁⟩ : ∃ q, spSub sp (s.length + 1) / 4 * 4 = q := ⟨_, rfl⟩
    rw [hsp₁] at hva ⊢
    rcases hs.copyout (Nat.succ_pos _) (by simp only [ADDRS]; omega) hsp hsp' hva (cstring s) with
      ⟨m₁, hc, hspare⟩ | ⟨m₁, hc, hs₁, h₁, h₂, hbytes⟩
    · rw [hc]
      exact Or.inl ⟨m₁, rfl, hspare⟩
    · rw [hc]
      dsimp only
      have hptrs₁ : (ptrs ++ [sp₁]).length ≤ MAXARG := by
        rw [List.length_append, List.length_singleton]
        omega
      rcases ih hs₁ h₁ (by omega) hptrs₁ (fun a ha => hargv a (List.mem_cons_of_mem _ ha)) with
        ⟨m', hp, hspare⟩ | ⟨m', sp', new, hp, hs', h₃, h₄, hcount, hall, hkeep⟩
      · exact Or.inl ⟨m', hp, hspare⟩
      · have hstr : StringAt m₁ f sp₁ (base + PGSIZE) s sp₁ := by
          refine ⟨le_rfl, by omega, fun j hj => ?_⟩
          rw [hbytes _ (by omega) (by omega), if_pos ⟨by omega, by omega⟩, Nat.add_sub_cancel_left]
          rfl
        refine Or.inr ⟨m', sp', sp₁ :: new, ?_, hs', h₃, by omega, ?_,
          .cons (hstr.mono h₄ hkeep) hall, fun a ha ha' => ?_⟩
        · rw [hp, List.append_assoc, List.singleton_append]
        · rwa [List.append_assoc, List.singleton_append] at hcount
        · rw [hkeep a (by omega) ha', hbytes a (by omega) ha', if_neg (by omega)]

end Push

/-- The arguments `argv` on a stack with the bytes `x`, from `esp` up to `hi`. -/
structure ArgsAt (x : Bytes) (lo hi esp : ℕ) (argv : List (List ℕ)) : Prop where
  lo_le : lo ≤ esp
  fake : getLE x esp 4 = 0xffffffff
  argc : getLE x (esp + 4) 4 = argv.length
  pointer : getLE x (esp + 8) 4 = esp + 12
  strings : ∀ i (h : i < argv.length), esp + 4 * (argv.length + 4) ≤ getLE x (esp + 12 + 4 * i) 4 ∧
    getLE x (esp + 12 + 4 * i) 4 + argv[i].length + 1 ≤ hi ∧
    ∀ j ≤ argv[i].length, x (getLE x (esp + 12 + 4 * i) 4 + j) = argv[i].getD j 0
  null : getLE x (esp + 12 + 4 * argv.length) 4 = 0
  le_hi : esp + 4 * (argv.length + 4) ≤ hi

section Build

variable {m₀ m m' : Kmem} {d d' : Pgdir} {f : Frame} {base sp sz esp lo hi : ℕ} {x y : Bytes}
  {argv : List (List ℕ)} {ptrs : List ℕ}

theorem ArgsAt.congr (h : ArgsAt x lo hi esp argv) (hxy : ∀ a, lo ≤ a → a < hi → y a = x a) :
    ArgsAt y lo hi esp argv := by
  have hlo := h.lo_le
  have hhi := h.le_hi
  have hword : ∀ i < argv.length + 4, getLE y (esp + 4 * i) 4 = getLE x (esp + 4 * i) 4 :=
    fun i hi => getLE_congr fun q hq hq' => hxy q (by omega) (by omega)
  have hptr : ∀ i ≤ argv.length, getLE y (esp + 12 + 4 * i) 4 = getLE x (esp + 12 + 4 * i) 4 := by
    intro i hi
    rw [show esp + 12 + 4 * i = esp + 4 * (i + 3) by omega]
    exact hword (i + 3) (by omega)
  refine ⟨hlo, (hword 0 (by omega)).trans h.fake, (hword 1 (by omega)).trans h.argc,
    (hword 2 (by omega)).trans h.pointer, fun i hi => ?_, (hptr _ le_rfl).trans h.null, hhi⟩
  obtain ⟨h₁, h₂, h₃⟩ := h.strings i hi
  rw [hptr i hi.le]
  exact ⟨h₁, h₂, fun j hj => (hxy _ (by omega) (by omega)).trans (h₃ j hj)⟩

theorem spSub_of_le {n : ℕ} (h : n ≤ sp) (hsp : sp < ADDRS) : spSub sp n = sp - n := by
  rw [spSub, Nat.mod_eq_of_lt (h.trans_lt hsp), show sp + ADDRS - n = sp - n + ADDRS by omega,
    Nat.add_mod_right, Nat.mod_eq_of_lt (by omega)]

/-- What `ustack` and the strings make. -/
theorem argsAt_of (hcount : ptrs.length ≤ MAXARG) (hlo : lo ≤ esp) (hhi : hi < ADDRS)
    (hsp : esp + 4 * (ptrs.length + 4) = sp) (hsphi : sp ≤ hi)
    (hx : ∀ a, esp ≤ a → a < sp → x a = wordBytes (ustack sp ptrs) (a - esp))
    (hstr : List.Forall₂ (fun s q => sp ≤ q ∧ q + s.length + 1 ≤ hi ∧
      ∀ j ≤ s.length, x (q + j) = s.getD j 0) argv ptrs) : ArgsAt x lo hi esp argv := by
  obtain ⟨hlen, hall⟩ := List.forall₂_iff_get.1 hstr
  have hcount' : ptrs.length ≤ 32 := hcount
  simp only [ADDRS] at hhi
  have hlist : ustack sp ptrs = 0xffffffff :: ptrs.length :: (esp + 12) :: (ptrs ++ [0]) := by
    rw [ustack, spSub_of_le (by omega) (by simp only [ADDRS]; omega),
      show sp - (ptrs.length + 1) * 4 = esp + 12 by omega]
    rfl
  have hword : ∀ i < ptrs.length + 4, ∀ w, (ustack sp ptrs).getD i 0 = w → w < 4294967296 →
      getLE x (esp + 4 * i) 4 = w := by
    rintro i hi w rfl hw
    refine getLE_of_bytes hw fun j hj => ?_
    rw [hx _ (by omega) (by omega), wordBytes, show esp + 4 * i + j - esp = 4 * i + j by omega,
      show (4 * i + j) / 4 = i by omega, show (4 * i + j) % 4 = j by omega]
  rw [hlist] at hword
  have hptr : ∀ i (h : i < ptrs.length), getLE x (esp + 12 + 4 * i) 4 = ptrs[i] := by
    intro i h
    have hle := (hall i (by omega) h).2.1
    simp only [List.get_eq_getElem] at hle
    rw [show esp + 12 + 4 * i = esp + 4 * (i + 3) by omega]
    refine hword (i + 3) (by omega) _ ?_ (by omega)
    rw [List.getD_cons_succ, List.getD_cons_succ, List.getD_cons_succ, List.getD_append _ _ _ _ h,
      List.getD_eq_getElem _ _ h]
  have hfake := hword 0 (by omega) 0xffffffff (List.getD_cons_zero ..) (by norm_num)
  rw [Nat.mul_zero, Nat.add_zero] at hfake
  have hargc := hword 1 (by omega) ptrs.length
    (by rw [List.getD_cons_succ, List.getD_cons_zero]) (by omega)
  have hpointer := hword 2 (by omega) (esp + 12)
    (by rw [List.getD_cons_succ, List.getD_cons_succ, List.getD_cons_zero]) (by omega)
  refine ⟨hlo, hfake, by rw [hlen, ← hargc], hpointer, fun i hi' => ?_, ?_, by omega⟩
  · have hi₂ : i < ptrs.length := hlen ▸ hi'
    have h := hall i hi' hi₂
    simp only [List.get_eq_getElem] at h
    rw [hptr i hi₂, hlen, hsp]
    exact h
  · rw [hlen, show esp + 12 + 4 * ptrs.length = esp + 4 * (ptrs.length + 3) by omega]
    refine hword _ (by omega) 0 ?_ (by norm_num)
    rw [List.getD_cons_succ, List.getD_cons_succ, List.getD_cons_succ,
      List.getD_append_right _ _ _ _ le_rfl, Nat.sub_self, List.getD_cons_zero]

theorem lt_PGROUNDUP {v : ℕ} : v * PGSIZE < PGROUNDUP sz ↔ v * PGSIZE < sz := by
  have hround : PGROUNDUP sz = pages sz * PGSIZE :=
    (Nat.div_mul_cancel ⟨_, Nat.mul_comm _ _⟩).symm
  rw [hround, Nat.mul_lt_mul_right (by decide), lt_pages]

/-- The two pages above the program. -/
theorem clearpteu_stack (hv : Valid m₀.free) (h : Loaded m₀ m' d' (sz + 2 * PGSIZE))
    (hsz : sz % PGSIZE = 0) (hx : Extended (pages sz) (sz + 2 * PGSIZE) m m' d d') :
    ∃ d₁ f, clearpteu d' (sz / PGSIZE) = .ok d₁ ∧ Stack m₀ m' d₁ (sz + PGSIZE) f := by
  have hsize := h.size
  rw [winpage_bytes] at hsize
  have hpages : pages sz = sz / PGSIZE := by
    rw [pages_eq]
    simp only [PGSIZE] at hsz ⊢
    omega
  have hpos : 0 < PGSIZE := by decide
  obtain ⟨g, -, hg, -⟩ := hx.fresh (sz / PGSIZE) hpages.le (by
    have := Nat.div_mul_le_self sz PGSIZE
    omega)
  obtain ⟨f, -, hf, -⟩ := hx.fresh (sz / PGSIZE + 1) (by omega) (by
    have := Nat.div_mul_le_self sz PGSIZE
    rw [Nat.add_mul]
    omega)
  obtain ⟨tab, htab, -⟩ := Option.bind_eq_some_iff.1 hg
  obtain ⟨d₁, hc⟩ : ∃ d₁, clearpteu d' (sz / PGSIZE) = .ok d₁ := by
    unfold clearpteu
    rw [htab]
    exact ⟨_, rfl⟩
  obtain ⟨ht, hframe, hl⟩ := clearpteu_spec hc
  have hmap : ∀ v, (d₁.lookup v).map Pte.frame = (d'.lookup v).map Pte.frame := by
    intro v
    rw [hl]
    split_ifs with hv
    · rw [hv, hg]
      rfl
    · rfl
  have hframes : d₁.frames = d'.frames := by
    rw [Pgdir.frames, ht, hframe, user_of_frames hmap, Pgdir.frames]
  have hspare : Spare m₀ m' d₁ := ⟨by rw [hframes, h.free], h.mem⟩
  have hbase : (sz + PGSIZE) / PGSIZE = sz / PGSIZE + 1 := Nat.add_div_right _ (by decide)
  refine ⟨d₁, f, hc, hspare, hspare.apart hv fun v e hv he => ?_, ?_, Nat.le_add_left _ _, ?_, ?_, ?_⟩
  · rw [hl] at he
    split_ifs at he
    · obtain ⟨e', -, rfl⟩ := Option.map_eq_some_iff.1 he
      rfl
    · exact h.kernel v e hv he
  · rw [Nat.add_mod_right, hsz]
  · rw [winpage_bytes]
    omega
  · rw [hbase, hl, if_neg (Nat.succ_ne_self _), hf]
    exact ⟨_, rfl, rfl, rfl⟩
  · rw [hbase, Nat.add_sub_cancel, hl, if_pos rfl, hg]
    exact ⟨_, rfl, rfl⟩

/-- **The stack** is built, or the directory keeps its frames. -/
theorem buildStack_spec (hv : Valid m₀.free) (h : Loaded m₀ m d sz)
    (hargv : ∀ a ∈ argv, a.length < KERNBASE) :
    (∃ m' d', buildStack d sz argv m = .ok (m', d', none) ∧ Spare m₀ m' d') ∨
      ∃ m' d' base f esp, buildStack d sz argv m = .ok (m', d', some (base + PGSIZE, esp)) ∧
        Stack m₀ m' d' base f ∧
        ArgsAt (fun a => m'.mem f (a % PGSIZE)) base (base + PGSIZE) esp argv := by
  have hpos : 0 < PGSIZE := by decide
  unfold buildStack
  have haligned : PGROUNDUP sz % PGSIZE = 0 := Nat.mul_mod_left _ _
  have hmapped : ∀ v < WINPAGE, (d.lookup v).isSome ↔ v * PGSIZE < PGROUNDUP sz := fun v hv =>
    (h.mapped v hv).trans lt_PGROUNDUP.symm
  generalize PGROUNDUP sz = b at haligned hmapped ⊢
  by_cases hbig : WINPAGE * PGSIZE ≤ b + 2 * PGSIZE
  · have halloc : allocuvm d b (b + 2 * PGSIZE) m = .ok (m, d, 0) := by
      unfold allocuvm
      rw [if_pos hbig]
    rw [halloc]
    exact Or.inl ⟨m, d, if_pos rfl, h.toSpare⟩
  have hl : Loaded m₀ m d b := ⟨h.toSpare, by omega, hmapped, h.kernel⟩
  rcases hl.allocuvm hv (b + 2 * PGSIZE) with
    ⟨m₁, d₁, halloc, hs⟩ | ⟨m₁, d₁, sz₁, halloc, hl₁, -, hx⟩
  · rw [halloc]
    exact Or.inl ⟨m₁, d₁, if_pos rfl, hs⟩
  obtain ⟨rfl, hext⟩ := hx (Nat.le_add_right _ _)
  obtain ⟨d₂, f, hc, hs⟩ := clearpteu_stack hv hl₁ haligned hext
  rw [halloc]
  dsimp only
  rw [if_neg (by omega), Nat.add_sub_cancel, hc]
  dsimp only
  have hhigh := hs.high
  rw [winpage_bytes] at hhigh
  have hnil : ([] : List ℕ).length ≤ MAXARG := Nat.zero_le _
  rcases pushArgs_spec hs (show b + PGSIZE ≤ b + 2 * PGSIZE by omega) (by omega) hnil hargv with
    ⟨m₂, hp, hspare⟩ | ⟨m₂, sp, ptrs, hp, hs₂, hsp, hsp', hcount, hall, -⟩
  · rw [hp]
    exact Or.inl ⟨m₂, d₂, rfl, hspare⟩
  rw [List.nil_append] at hp hcount
  have hcount' : ptrs.length ≤ 32 := hcount
  rw [hp]
  dsimp only
  have hesp := spSub_cases sp ((3 + ptrs.length + 1) * 4)
    (by rw [winpage_bytes]; omega) (by omega)
  obtain ⟨esp, he⟩ : ∃ q, spSub sp ((3 + ptrs.length + 1) * 4) = q := ⟨_, rfl⟩
  rw [he] at hesp ⊢
  have hva : esp + (3 + ptrs.length + 1) * 4 ≤ sp ∧ sp < esp + (3 + ptrs.length + 1) * 4 + 4 ∨
      WINPAGE * PGSIZE ≤ esp ∧ esp < ADDRS := by
    rcases hesp with h | ⟨h, h'⟩
    · exact Or.inl ⟨h.le, by omega⟩
    · exact Or.inr ⟨h.trans (Nat.div_mul_le_self _ _), h'⟩
  rcases hs₂.copyout (by omega) (by simp only [ADDRS]; omega) hsp (by omega) hva
    (wordBytes (ustack sp ptrs)) with ⟨m₃, hcopy, hspare⟩ | ⟨m₃, hcopy, hs₃, h₁, h₂, hbytes⟩
  · rw [hcopy]
    exact Or.inl ⟨m₃, d₂, rfl, hspare⟩
  · rw [hcopy]
    have hend : esp + 4 * (ptrs.length + 4) = sp := by
      rw [winpage_bytes] at hva
      omega
    refine Or.inr ⟨m₃, d₂, b + PGSIZE, f, esp, ?_, hs₃, argsAt_of hcount h₁
      (by simp only [ADDRS]; omega) hend (by omega) (fun a ha ha' => ?_) (hall.imp fun s q hq => ?_)⟩
    · rw [show b + PGSIZE + PGSIZE = b + 2 * PGSIZE by omega]
    · exact (hbytes a (by omega) (by omega)).trans (if_pos ⟨ha, by omega⟩)
    · have hlo := hq.lo_le
      have hhi := hq.le_hi
      refine ⟨hlo, hhi, fun j hj => ?_⟩
      exact (hbytes _ (by omega) (by omega)).trans ((if_neg (by omega)).trans (hq.bytes j hj))

theorem Spare.freevm (hv : Valid m₀.free) (h : Spare m₀ m d) : ∃ m', freevm d m = .ok m' ∧
    m'.free = m₀.free ∧ ∀ f ∉ m₀.free, m'.mem f = m₀.mem f := by
  obtain ⟨m', hf⟩ := freevm_total
    (fun f hf => hv.ok f (Multiset.mem_of_le h.frames_le hf)) m
  have hfree : m'.free = m₀.free := by rw [freevm_spec hf, h.free]
  exact ⟨m', hf, hfree, fun f hm => ((freevm_freed hf).mem f (hfree ▸ hm)).trans (h.mem f hm)⟩

end Build

/-! ## With frames and room enough -/

section Enough

variable {m₀ m : Kmem} {d : Pgdir} {f : Frame} {base sp va len sz : ℕ} {argv : List (List ℕ)}
  {ptrs : List ℕ}

theorem Stack.copyout_enough (hs : Stack m₀ m d base f) (hva : base ≤ va)
    (hend : va + len ≤ base + PGSIZE) (p : ℕ → ℕ) :
    ∃ m', copyoutUser d va p len m = (m', true) ∧ Stack m₀ m' d base f := by
  have hhigh := hs.high
  have haligned := hs.aligned
  rw [winpage_bytes] at hhigh
  have hpage : ∀ i < len, UserByte d va i := by
    intro i hi
    obtain ⟨e, he, -, hu⟩ := hs.page
    have heq : addr va i / PGSIZE = base / PGSIZE := by
      simp only [addr, ADDRS, PGSIZE] at haligned hhigh hend ⊢
      omega
    exact ⟨e, by rw [heq]; exact he, hu⟩
  obtain ⟨k, hk, huser, hor⟩ := copyout_spec (p := p) (m := m) hs.apart
    (show va < ADDRS by simp only [ADDRS, PGSIZE] at hhigh hend ⊢; omega)
    (show len ≤ ADDRS by simp only [ADDRS, PGSIZE] at hhigh hend ⊢; omega)
  rcases hor with ⟨rfl, m', hc, hto⟩ | ⟨hlt, hbad, -⟩
  · exact ⟨m', by rw [copyoutUser, hc]; rfl, hs.toSpare.copied hs.apart huser hto, hs.apart,
      hs.aligned, hs.low, hs.high, hs.page, hs.guard⟩
  · exact absurd (hpage k hlt) hbad

/-- Room for the strings of `argv`. -/
def argBytes : List (List ℕ) → ℕ
  | [] => 0
  | a :: argv => a.length + 4 + argBytes argv

/-- With room for the strings, they are copied. -/
theorem pushArgs_enough (hs : Stack m₀ m d base f) (hsp : base + argBytes argv ≤ sp)
    (hsp' : sp ≤ base + PGSIZE) (hcount : ptrs.length + argv.length ≤ MAXARG) :
    ∃ m' sp' new, pushArgs d argv sp ptrs m = (m', some (sp', new)) ∧ Stack m₀ m' d base f ∧
      new.length = ptrs.length + argv.length ∧ sp' ≤ sp ∧ sp ≤ sp' + argBytes argv := by
  induction argv generalizing sp ptrs m with
  | nil => exact ⟨m, sp, ptrs, rfl, hs, rfl, le_rfl, Nat.le_add_right _ _⟩
  | cons a argv ih =>
    rw [argBytes] at hsp ⊢
    rw [List.length_cons] at hcount ⊢
    have hhigh := hs.high
    rw [winpage_bytes] at hhigh
    have hsub : spSub sp (a.length + 1) = sp - (a.length + 1) :=
      spSub_of_le (by omega) (by simp only [ADDRS, PGSIZE] at hhigh hsp' ⊢; omega)
    obtain ⟨sp₁, hsp₁⟩ : ∃ q, (sp - (a.length + 1)) / 4 * 4 = q := ⟨_, rfl⟩
    obtain ⟨m₁, hc, hs₁⟩ := hs.copyout_enough (show base ≤ sp₁ by omega)
      (show sp₁ + (a.length + 1) ≤ base + PGSIZE by omega) (cstring a)
    have hcount' : (ptrs ++ [sp₁]).length + argv.length ≤ MAXARG := by
      rw [List.length_append, List.length_singleton]
      omega
    obtain ⟨m', sp', new, hp, hs', hlen, hle, hge⟩ :=
      ih hs₁ (show base + argBytes argv ≤ sp₁ by omega) (by omega) hcount'
    rw [List.length_append, List.length_singleton] at hlen
    refine ⟨m', sp', new, ?_, hs', by omega, by omega, by omega⟩
    rw [pushArgs, if_neg (by omega), hsub, hsp₁]
    dsimp only
    rw [hc]
    exact hp

/-- With frames and room enough, the stack is built. -/
theorem buildStack_enough (hv : Valid m₀.free) (h : Loaded m₀ m d sz)
    (hsz : PGROUNDUP sz + 2 * PGSIZE < WINPAGE * PGSIZE)
    (hcard : 2 * ((PGROUNDUP sz + 2 * PGSIZE) / PGSIZE + 1) ≤ m.free.card)
    (hroom : argBytes argv + (3 + argv.length + 1) * 4 ≤ PGSIZE) (hcount : argv.length ≤ MAXARG) :
    ∃ m' d' r, buildStack d sz argv m = .ok (m', d', some r) := by
  have haligned : PGROUNDUP sz % PGSIZE = 0 := Nat.mul_mod_left _ _
  have hmapped : ∀ v < WINPAGE, (d.lookup v).isSome ↔ v * PGSIZE < PGROUNDUP sz := fun v hv =>
    (h.mapped v hv).trans lt_PGROUNDUP.symm
  unfold buildStack
  generalize PGROUNDUP sz = b at haligned hmapped hsz hcard ⊢
  have hl : Loaded m₀ m d b := ⟨h.toSpare, by omega, hmapped, h.kernel⟩
  have hmem : Memory d b m := ⟨hl.size, hl.mapped, hl.valid hv⟩
  obtain ⟨m₁, d₁, halloc, hext, -⟩ := allocuvm_enough (Nat.le_add_right b _) hsz (fun x h₁ h₂ => by
      refine hmem.unmapped (lt_winpage hsz.le h₂) (Nat.le_of_not_lt fun hx => ?_)
      have := lt_pages.2 hx
      omega) hmem.valid hcard (by omega)
  obtain ⟨d₂, f, hc, hs⟩ :=
    clearpteu_stack hv (hl.extended (Nat.le_add_right b _) hsz hext) haligned hext
  have hcount' : ([] : List ℕ).length + argv.length ≤ MAXARG := by rwa [List.length_nil, Nat.zero_add]
  obtain ⟨m₂, sp, ptrs, hp, hs₂, hlen, hle, hge⟩ := pushArgs_enough hs
    (show b + PGSIZE + argBytes argv ≤ b + 2 * PGSIZE by omega) (by omega) hcount'
  rw [List.length_nil, Nat.zero_add] at hlen
  have hhigh := hs.high
  rw [winpage_bytes] at hhigh
  have hsub : spSub sp ((3 + ptrs.length + 1) * 4) = sp - (3 + ptrs.length + 1) * 4 :=
    spSub_of_le (by omega) (by simp only [ADDRS, PGSIZE] at hhigh hle ⊢; omega)
  obtain ⟨m₃, hcopy, -⟩ := hs₂.copyout_enough
    (show b + PGSIZE ≤ sp - (3 + ptrs.length + 1) * 4 by omega)
    (show _ + (3 + ptrs.length + 1) * 4 ≤ _ by omega) (wordBytes (ustack sp ptrs))
  rw [halloc]
  dsimp only
  rw [if_neg (by omega), Nat.add_sub_cancel, hc]
  dsimp only
  rw [hp]
  dsimp only
  rw [hsub, hcopy]
  exact ⟨_, _, _, rfl⟩

end Enough

/-! ## `exec` -/

/-- The byte at the user address `a`. -/
def userByte (d : Pgdir) (m : Kmem) : Bytes := fun a =>
  (d.lookup (a / PGSIZE)).elim 0 fun e => m.mem e.frame (a % PGSIZE)

namespace ExecState

/-- `exec` has failed: the process and all memory in use are as they were. -/
structure Unchanged (s s' : ExecState) : Prop where
  pgdir : s'.pgdir = s.pgdir
  sz : s'.sz = s.sz
  name : s'.name = s.name
  eip : s'.eip = s.eip
  esp : s'.esp = s.esp
  mem : ∀ f ∉ s.kmem.free, s'.kmem.mem f = s.kmem.mem f
  free : s'.kmem.free = s.kmem.free
  ref : s'.ref = s.ref
  begun : s'.begun = s.begun + 1
  ended : s'.ended = s.ended + 1

/-- `exec` has succeeded: the arguments are in the page above the guard page. -/
structure Started (s s' : ExecState) (argv : List (List ℕ)) : Prop where
  stack : ∃ base, s'.sz = base + PGSIZE ∧ base % PGSIZE = 0 ∧
    (∃ e, s'.pgdir.lookup (base / PGSIZE) = some e ∧ e.u = true) ∧
    (∃ e, s'.pgdir.lookup (base / PGSIZE - 1) = some e ∧ e.u = false) ∧
    ArgsAt (userByte s'.pgdir s'.kmem) base (base + PGSIZE) s'.esp argv
  ref : s'.ref = s.ref
  begun : s'.begun = s.begun + 1
  ended : s'.ended = s.ended + 1

theorem bad_eq {d : Pgdir} {m m' : Kmem} (h : freevm d m = .ok m') (ip : Bool) (s : ExecState) :
    s.bad d ip m = .ok (if ip then { s with kmem := m', ref := s.ref - 1, ended := s.ended + 1 }
      else { s with kmem := m' }, -1) := by
  unfold bad
  rw [h]
  cases ip <;> rfl

/-- **`exec`** commits at the end or changes nothing. The strings of `argv` come from user memory. -/
theorem exec_commits {s : ExecState} (h : Memory s.pgdir s.sz s.kmem) (x : ExecFile) (path : List ℕ)
    {argv : List (List ℕ)} (hargv : ∀ a ∈ argv, a.length < KERNBASE) :
    ∃ s' r, s.exec x path argv = .ok (s', r) ∧
      (r = -1 ∧ Unchanged s s' ∨ r = 0 ∧ Started s s' argv) := by
  have hv : Valid s.kmem.free := h.valid.mono (Multiset.le_add_right _ _)
  have hbad : ∀ {m' : Kmem}, m'.free = s.kmem.free → (∀ f ∉ s.kmem.free, m'.mem f = s.kmem.mem f) →
      Unchanged s { s with kmem := m', begun := s.begun + 1, ended := s.ended + 1
                           ref := s.ref + 1 - 1 } := fun hfree hmem =>
    ⟨rfl, rfl, rfl, rfl, rfl, hmem, hfree, Nat.add_sub_cancel _ _, rfl, rfl⟩
  unfold exec
  rcases x.readi 0 0 ELFHDRSIZE with ⟨r, bs⟩
  by_cases hfound : x.found = false
  · dsimp only
    rw [if_pos hfound]
    exact ⟨_, _, rfl, Or.inl ⟨rfl, hbad rfl fun _ _ => rfl⟩⟩
  dsimp only
  rw [if_neg hfound]
  by_cases helf : r ≠ ELFHDRSIZE ∨ getLE (stored bs) 0 4 ≠ ELF_MAGIC
  · rw [if_pos helf]
    exact ⟨_, _, rfl, Or.inl ⟨rfl, hbad rfl fun _ _ => rfl⟩⟩
  rw [if_neg helf]
  rcases setupkvm_spec hv.ok with ⟨m₁, d₁, hset, hnew⟩ | ⟨m₁, hset, hfree, -, hmem⟩
  swap
  · rw [hset]
    exact ⟨_, _, rfl, Or.inl ⟨rfl, hbad hfree hmem⟩⟩
  rw [hset]
  dsimp only
  rcases loadLoop_spec (x := x) (n := getLE (stored bs) 44 2) (o := getLE (stored bs) 28 4) (k := 1)
    hv hnew.loaded with ⟨m₂, d₂, hload, hs⟩ | ⟨m₂, d₂, sz₂, hload, hl₂⟩
  · obtain ⟨m₃, hfv, hfree, hmem⟩ := hs.freevm hv
    rw [hload]
    dsimp only
    rw [bad_eq hfv, if_pos rfl]
    exact ⟨_, _, rfl, Or.inl ⟨rfl, hbad hfree hmem⟩⟩
  rw [hload]
  dsimp only
  rcases buildStack_spec hv hl₂ hargv with
    ⟨m₃, d₃, hbuild, hs⟩ | ⟨m₃, d₃, base, f, esp, hbuild, hs, hargs⟩
  · obtain ⟨m₄, hfv, hfree, hmem⟩ := hs.freevm hv
    rw [hbuild]
    dsimp only
    rw [bad_eq hfv, if_neg Bool.false_ne_true]
    exact ⟨_, _, rfl, Or.inl ⟨rfl, hbad hfree hmem⟩⟩
  rw [hbuild]
  dsimp only
  obtain ⟨m₄, hfv⟩ := freevm_total h.frames_ok m₃
  rw [hfv]
  refine ⟨_, _, rfl, Or.inr ⟨rfl, ⟨base, rfl, hs.aligned, ?_, hs.guard, ?_⟩, Nat.add_sub_cancel _ _,
    rfl, rfl⟩⟩
  · obtain ⟨e, he, -, hu⟩ := hs.page
    exact ⟨e, he, hu⟩
  · obtain ⟨e, he, hef, hu⟩ := hs.page
    -- the frame of the stack is neither free nor one of the old directory
    have hin : f ∈ d₃.frames := by
      have hw : base / PGSIZE < WINPAGE := by
        by_contra hge
        rw [hs.apart.kernel _ e (Nat.le_of_not_lt hge) he] at hu
        cases hu
      exact hef ▸ mem_frames.2 (Or.inr (Or.inr (mem_user hw he)))
    have hnot : f ∉ m₄.free := by
      rw [freevm_spec hfv, Multiset.mem_add, not_or]
      constructor
      · have hn := hv.nodup
        rw [← hs.free] at hn
        exact fun hf => not_mem_of_nodup hn hf hin
      · exact not_mem_of_nodup h.valid.nodup (Multiset.mem_of_le hs.frames_le hin)
    refine hargs.congr fun a ha ha' => ?_
    have hpage : a / PGSIZE = base / PGSIZE := by
      have haligned := hs.aligned
      simp only [PGSIZE] at haligned ha' ⊢
      omega
    rw [userByte, hpage, he, Option.elim_some, hef, (freevm_freed hfv).mem f hnot]

/-- An ELF header with one program header, at offset 0. -/
def blankElf : List ℕ := [0x7f, 0x45, 0x4c, 0x46] ++ List.replicate 40 0 ++ [1]

/-- The program header of a segment of one page without contents. -/
def blankSegment : List ℕ := [1] ++ List.replicate 20 0 ++ [16]

/-- A program of one page. -/
def blankPage : ExecFile where
  found := true
  readi k _ _ := if k = 0 then (52, blankElf) else (32, blankSegment)

theorem blankPage_loads {m m' : Kmem} {d d' : Pgdir}
    (halloc : allocuvm d 0 4096 m = .ok (m', d', 4096)) :
    loadLoop blankPage 1 0 d 0 m 1 = .ok (m', d', some 4096) := by
  have htype : getLE (stored blankSegment) 0 4 = ELF_PROG_LOAD := by decide
  have hfilesz : getLE (stored blankSegment) 16 4 = 0 := by decide
  have hmemsz : getLE (stored blankSegment) 20 4 = 4096 := by decide
  have hvaddr : getLE (stored blankSegment) 8 4 = 0 := by decide
  have hend : addr 0 4096 = 4096 := by decide
  have hload : ∀ o, loaduvm blankPage d' 0 o 0 m' 2 = .ok (m', 2, true) := fun _ => rfl
  have hread : blankPage.readi 1 0 PROGHDRSIZE = (32, blankSegment) := rfl
  unfold loadLoop loadSegment
  rw [hread]
  dsimp only
  rw [if_neg (by decide), htype, if_neg (by decide), hmemsz, hfilesz, hvaddr, hend,
    if_neg (by decide), if_neg (by decide), halloc]
  dsimp only
  rw [if_neg (by decide), if_neg (by decide), hload]
  rfl

/-- With 100 free frames, it starts as `ls`. -/
theorem blankPage_starts {s : ExecState} (hs : Memory s.pgdir s.sz s.kmem)
    (hcard : 100 ≤ s.kmem.free.card) (path : List ℕ) : ∃ s', s.exec blankPage path [[108, 115]] = .ok (s', 0) := by
  have hv : Valid s.kmem.free := hs.valid.mono (Multiset.le_add_right _ _)
  rcases setupkvm_spec hv.ok with ⟨m₁, d₁, hset, hnew⟩ | ⟨m₁, -, -, hlt, -⟩
  swap
  · omega
  have hcard₁ := hnew.card
  have hsz : 4096 < WINPAGE * PGSIZE := by
    rw [winpage_bytes]
    decide
  obtain ⟨m₂, d₂, halloc, hext, hcard₂⟩ := allocuvm_enough (Nat.zero_le 4096) hsz (fun x _ hx =>
      hnew.lookup x ((lt_winpage hsz.le hx).trans_le winpage_le)) (by rw [hnew.free]; exact hv)
    (show 2 * (4096 / 4096 + 1) ≤ m₁.free.card by omega) (by decide)
  have hl := hnew.loaded.extended (Nat.zero_le 4096) hsz hext
  have hround : PGROUNDUP 4096 = 4096 := by decide
  obtain ⟨m₃, d₃, r, hbuild⟩ : ∃ m' d' r, buildStack d₂ 4096 [[108, 115]] m₂ = .ok (m', d', some r) :=
    buildStack_enough hv hl (by rw [hround, winpage_bytes]; decide)
      (by rw [hround]; simp only [PGSIZE] at hcard₂ ⊢; omega) (by decide) (by decide)
  obtain ⟨m₄, hfv⟩ := freevm_total hs.frames_ok m₃
  have hread : blankPage.readi 0 0 ELFHDRSIZE = (52, blankElf) := rfl
  have hmagic : getLE (stored blankElf) 0 4 = ELF_MAGIC := by decide
  have hphoff : getLE (stored blankElf) 28 4 = 0 := by decide
  have hphnum : getLE (stored blankElf) 44 2 = 1 := by decide
  have hfound : blankPage.found ≠ false := by decide
  unfold exec
  rw [hread]
  dsimp only
  rw [if_neg hfound, if_neg (by rw [hmagic]; decide), hset]
  dsimp only
  rw [hphnum, hphoff, blankPage_loads halloc]
  dsimp only
  rw [hbuild]
  dsimp only
  rw [hfv]
  exact ⟨_, rfl⟩

/-- A process of one page with 100 free frames. -/
def oneSpace : ExecState := ⟨⟨List.range' 400 100, fun _ _ => 0⟩, 0, 0, 1, onePage, 4096, [], 0, 0⟩

/-- It becomes `ls`. -/
theorem exec_commits_ls : ∃ s', oneSpace.exec blankPage [108, 115] [[108, 115]] = .ok (s', 0) ∧
    Started oneSpace s' [[108, 115]] := by
  have hm : Memory oneSpace.pgdir oneSpace.sz oneSpace.kmem :=
    onePage_room List.nodup_range' (fun f hf => List.mem_range'_1.1 hf) _
  have hcard : oneSpace.kmem.free.card = 100 := List.length_range'
  obtain ⟨s₁, h₁⟩ := blankPage_starts hm hcard.ge [108, 115]
  obtain ⟨s₂, r, h₂, ⟨rfl, -⟩ | ⟨rfl, hs⟩⟩ := exec_commits hm blankPage [108, 115]
    (show ∀ a ∈ ([[108, 115]] : List (List ℕ)), a.length < KERNBASE by decide)
  · have heq := Except.ok.inj (h₁.symm.trans h₂)
    exact absurd (Prod.mk.inj heq).2 (by decide)
  · exact ⟨s₂, h₂, hs⟩

end ExecState

end OsPlayground
