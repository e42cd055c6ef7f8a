import OsPlayground.Proc.Inv
import OsPlayground.Sysfile.Calls
import OsPlayground.Vm.Grow
import OsPlayground.Vm.Kernel

/-!
# `fork`

`fork` with the functions of `proc.c`, `vm.c` and `sysfile.c` that it calls, on all that these change.

* `Machine.fork`: as the code does it.
* `copyLoop_spec`: the loop of `copyuvm` copies every page, or `freevm` gives the frames back; where a
  page table cannot be had, one frame is lost.
* `ForksExactly`: what `fork` should do; **`fork_iff`**: when it does.
-/

namespace OsPlayground

open Lib Finset Fs

/-! ## The code -/

/-- `struct trapframe`. -/
structure Trapframe where
  eax : ℕ
  /-- The other registers. -/
  regs : ℕ → ℕ

/-- What `fork` reads and writes. The bytes of a kernel stack are left out but for the trap frame. -/
structure Machine where
  table : Ptable
  kmem : Kmem
  sys : Sysfile.Sys
  sz : Slot → ℕ
  pgdir : Slot → Option Pgdir
  kstack : Slot → Option Frame
  tf : Slot → Trapframe
  name : Slot → List ℕ

namespace Machine

/-- `fork` after `copyuvm`, with the kernel stack `k` and the directory `d`. -/
def forkInto (p np : Slot) (t : Ptable) (k : Frame) (d : Pgdir) (m : Kmem) (s : Machine) :
    Except Sysfile.Halt (Machine × Option Slot) :=
  match Sysfile.fork p (some np) s.sys with
  | .error h => .error h
  | .ok (_, sys) =>
    .ok ({ table := forkCommit np (forkCopy p np t), kmem := m, sys := sys,
           sz := Function.update s.sz np (s.sz p)
           pgdir := Function.update s.pgdir np (some d)
           kstack := Function.update s.kstack np (some k)
           tf := Function.update s.tf np { s.tf p with eax := 0 }
           name := Function.update s.name np ((s.name p).take 15) }, some np)

/-- `fork` of the process `p`: the slot of the child, whose `pid` the code returns, or `none` for
-1. -/
def fork (p : Slot) (s : Machine) : Except Sysfile.Halt (Machine × Option Slot) :=
  match allocproc s.table with
  | none => .ok (s, none)
  | some (np, t) =>
    match kalloc s.kmem with
    | (_, none) =>
      .ok ({ s with table := freeEmbryo np t, kstack := Function.update s.kstack np none }, none)
    | (m, some k) =>
      match s.pgdir p with
      | none => .error (.panic "trap")
      | some pgdir =>
        match copyuvm pgdir (s.sz p) m with
        | .error e => .error (.panic e)
        | .ok (m, some d) => forkInto p np (allocprocInit np t) k d m s
        | .ok (m, none) =>
          match kfree k m with
          | .error e => .error (.panic e)
          | .ok m =>
            .ok ({ s with table := freeEmbryo np (allocprocInit np t), kmem := m
                          pgdir := Function.update s.pgdir np none
                          kstack := Function.update s.kstack np none }, none)

end Machine

/-! ## What `fork` should do -/

/-- The child in the slot `np` has a copy of the memory of `p`, on frames that were free and belong to
it alone. -/
structure Forked (p np : Slot) (d : Pgdir) (s s' : Machine) : Prop where
  sz : s'.sz np = s.sz p
  memory : ∃ d' k, s'.pgdir np = some d' ∧ s'.kstack np = some k ∧
    s'.kmem.free + ({k} + d'.frames) = s.kmem.free ∧ ({k} + d'.frames).Nodup ∧
    (∀ v < WINPAGE, (d'.lookup v).isSome ↔ v * PGSIZE < s.sz p) ∧
    ∀ v < WINPAGE, v * PGSIZE < s.sz p → ∃ e f, d.lookup v = some e ∧
      d'.lookup v = some ⟨f, e.w, e.u⟩ ∧ s'.kmem.mem f = s.kmem.mem e.frame
  others : ∀ f ∉ s.kmem.free, s'.kmem.mem f = s.kmem.mem f

/-- Nothing but the slot that was tried has changed, and it is as unused as before. -/
structure NotForked (p : Slot) (s s' : Machine) : Prop where
  free : s'.kmem.free = s.kmem.free
  state : ∀ q, (s'.table.proc q).state = (s.table.proc q).state
  sys : s'.sys = s.sys
  parent : s'.table.proc p = s.table.proc p
  pgdir : s'.pgdir p = s.pgdir p
  kstack : s'.kstack p = s.kstack p
  sz : s'.sz = s.sz
  tf : s'.tf = s.tf
  name : s'.name = s.name
  others : ∀ f ∉ s.kmem.free, s'.kmem.mem f = s.kmem.mem f

/-- `fork` of the process `p`, whose directory is `d`, copies exactly or not at all. -/
structure ForksExactly (p : Slot) (d : Pgdir) (s : Machine) : Prop where
  forked : ∀ s' np, s.fork p = .ok (s', some np) → Forked p np d s s'
  not_forked : ∀ s', s.fork p = .ok (s', none) → NotForked p s s'
  /-- The memory makes no trouble. -/
  returns : (∀ np, ∃ r, Sysfile.fork p (some np) s.sys = .ok r) → ∃ r, s.fork p = .ok r

/-- The number of frames for the pages below `v` and their page tables. -/
def copyFrames (v : ℕ) : ℕ := v + (v + NPTENTRIES - 1) / NPTENTRIES

/-- The loop of `copyuvm` gets to a page with a frame for it and none for its page table, when it is
at the page `v` with `c` frames left. -/
def Leaks (sz v c : ℕ) : Prop :=
  ∃ x, v ≤ x ∧ x * PGSIZE < sz ∧ x % NPTENTRIES = 0 ∧ c + copyFrames v = copyFrames x + 1

/-! ## `copyuvm` -/

section Copy

variable {m m' : Kmem} {d d' pgdir : Pgdir} {sz v n c : ℕ} {w u ok : Bool} {f : Frame}

/-- The pages from `v` up to `sz` were copied. -/
structure CopiedPages (pgdir : Pgdir) (sz v : ℕ) (m m' : Kmem) (d d' : Pgdir) : Prop where
  conserved : m'.free + d'.frames = m.free + d.frames
  taken : Taken m m'
  lookup : ∀ x, ¬ (v ≤ x ∧ x * PGSIZE < sz) → d'.lookup x = d.lookup x
  copied : ∀ x, v ≤ x → x * PGSIZE < sz → ∃ e f, pgdir.lookup x = some e ∧
    d'.lookup x = some ⟨f, e.w, e.u⟩ ∧ m'.mem f = m.mem e.frame

/-- One page more. -/
theorem CopiedPages.cons {m₁ m₂ : Kmem} {d₁ : Pgdir} {e : Pte} (hvalid : Valid (m.free + d.frames))
    (hpar : ∀ x e, x * PGSIZE < sz → pgdir.lookup x = some e → e.frame ∉ m.free + d.frames)
    (hv : v < WINPAGE) (hvsz : v * PGSIZE < sz) (he : pgdir.lookup v = some e)
    (hk : kalloc m = (m₁, some f))
    (hmap : mappages d (v * PGSIZE) PGSIZE (f * PGSIZE) e.w e.u (m₁.memmove f e.frame) =
      .ok (m₂, d₁, true)) (h : CopiedPages pgdir sz (v + 1) m₂ m' d₁ d') :
    CopiedPages pgdir sz v m m' d d' := by
  have hmove : Taken m (m₁.memmove f e.frame) := (kalloc_taken hk).write (mem_of_kalloc hk)
  obtain ⟨hcons, htaken, hl, hf, hmem⟩ := mapPage_new hvalid hv hk hmove rfl hmap
  refine ⟨h.conserved.trans hcons, htaken.trans h.taken, fun x hx => ?_, fun x h₁ h₂ => ?_⟩
  · rw [h.lookup x fun hx' => hx ⟨by omega, hx'.2⟩, hl, if_neg]
    rintro rfl
    exact hx ⟨le_rfl, hvsz⟩
  · by_cases hxv : x = v
    · subst hxv
      refine ⟨e, f, he, ?_, ?_⟩
      · rw [h.lookup x fun hx' => by omega, hl, if_pos rfl]
      · rw [h.taken.mem f hf, hmem]
        exact (Function.update_self _ _ _).trans (congrFun (kalloc_mem hk) _)
    · obtain ⟨e', g, he', hg, hgm⟩ := h.copied x (by omega) h₂
      refine ⟨e', g, he', hg, hgm.trans (htaken.mem _ fun hm => ?_)⟩
      exact hpar x e' h₂ he' (Multiset.mem_add.2 (Or.inl hm))

theorem copyFrames_succ (v : ℕ) :
    copyFrames (v + 1) = copyFrames v + 1 + if v % NPTENTRIES = 0 then 1 else 0 := by
  have hN : NPTENTRIES = 1024 := rfl
  rw [copyFrames, copyFrames, hN]
  split_ifs <;> omega

theorem copyFrames_lt {x : ℕ} (h : v < x) : copyFrames v < copyFrames x := by
  have hN : NPTENTRIES = 1024 := rfl
  rw [copyFrames, copyFrames, hN]
  omega

theorem leaks_succ {c' : ℕ} (hc : c + copyFrames v = c' + copyFrames (v + 1)) :
    Leaks sz (v + 1) c' ↔ Leaks sz v c := by
  constructor
  · rintro ⟨x, hx, hsz, hmod, heq⟩
    exact ⟨x, by omega, hsz, hmod, by omega⟩
  · rintro ⟨x, hx, hsz, hmod, heq⟩
    refine ⟨x, ?_, hsz, hmod, by omega⟩
    rcases hx.eq_or_lt with rfl | hlt
    · rw [copyFrames_succ, if_pos hmod] at hc
      omega
    · exact hlt

theorem copyBad_eq (h : freevm d m = .ok m') : copyBad d m = .ok (m', none) := by
  unfold copyBad
  rw [h]

/-- The loop of `copyuvm` has copied the pages below `v` to `d`. -/
structure Copying (v : ℕ) (m : Kmem) (d : Pgdir) : Prop where
  none : ∀ x < WINPAGE, v ≤ x → d.lookup x = none
  pde : ∀ i < 512, (d.pde i).isSome ↔ i * NPTENTRIES < v
  valid : Valid (m.free + d.frames)

theorem Copying.table (h : Copying v m d) (hv : v < WINPAGE) :
    (d.pde (v / NPTENTRIES)).isSome ↔ ¬ v % NPTENTRIES = 0 := by
  have hN : NPTENTRIES = 1024 := rfl
  have hvt : v / NPTENTRIES < 512 := by
    have : KERNBASE / PGSIZE = 524288 := by decide
    have := winpage_le
    rw [hN]
    omega
  have htable := h.pde (v / NPTENTRIES) hvt
  rw [hN] at htable
  rw [hN, htable]
  omega

theorem CopiedPages.done (hle : sz ≤ v * PGSIZE) :
    CopiedPages pgdir sz v m m d d ∧ ¬ Leaks sz v m.free.card := by
  refine ⟨⟨rfl, .refl m, fun _ _ => rfl, fun x h₁ h₂ => (not_below hle ⟨h₁, h₂⟩).elim⟩, ?_⟩
  rintro ⟨x, h₁, h₂, -⟩
  exact not_below hle ⟨h₁, h₂⟩

theorem copyBad_noFrame (sz : ℕ) {m₁ : Kmem} (h : Copying v m d) (hk : kalloc m = (m₁, none)) :
    ∃ m', copyBad d m₁ = .ok (m', none) ∧ (∀ g ∉ m.free + d.frames, m'.mem g = m.mem g) ∧
      ¬ Leaks sz v m.free.card ∧ m'.free = m.free + d.frames := by
  obtain ⟨rfl, hzero⟩ := kalloc_none hk
  obtain ⟨m', hfv⟩ := freevm_total h.valid.frames_ok m₁
  have hfree := freevm_spec hfv
  refine ⟨m', copyBad_eq hfv, fun g hg => (freevm_freed hfv).mem g (by rwa [hfree]), ?_, hfree⟩
  rintro ⟨x, h₁, -, -, heq⟩
  rw [hzero, Multiset.card_zero] at heq
  rcases h₁.eq_or_lt with rfl | hlt
  · omega
  · have := copyFrames_lt hlt
    omega

/-- No frame for the page table: the frame `f` of the page is lost. -/
theorem copyBad_noTable {m₁ m₂ : Kmem} {d₁ : Pgdir} {e : Pte} (h : Copying v m d) (hv : v < WINPAGE)
    (hlt : v * PGSIZE < sz) (hk : kalloc m = (m₁, some f))
    (hmap : mappages d (v * PGSIZE) PGSIZE (f * PGSIZE) e.w e.u (m₁.memmove f e.frame) =
      .ok (m₂, d₁, false)) :
    ∃ m', copyBad d₁ m₂ = .ok (m', none) ∧ (∀ g ∉ m.free + d.frames, m'.mem g = m.mem g) ∧
      Leaks sz v m.free.card ∧ ∃ f, m'.free + {f} = m.free + d.frames := by
  have hfree := kalloc_some hk
  have hcard : m.free.card = m₁.free.card + 1 := by
    rw [hfree, Multiset.card_add, Multiset.card_singleton, Nat.add_comm]
  have howned := mapPage_owned hv hmap
  obtain ⟨hthere, hnew⟩ := mapPage_card (h.none v hv le_rfl) hmap
  rw [Kmem.memmove_free] at howned hthere hnew
  rw [if_neg Bool.false_ne_true, add_zero] at howned
  have hmove : Taken m (m₁.memmove f e.frame) := (kalloc_taken hk).write (mem_of_kalloc hk)
  have htaken : Taken m m₂ := hmove.trans (mapPage_taken hmap)
  have htable := h.table hv
  have hz : v % NPTENTRIES = 0 := by
    by_contra hz
    exact Bool.false_ne_true (hthere (htable.2 hz)).1
  have hm₁ : m₁.free.card = 0 := (hnew (by rw [htable]; exact not_not.2 hz)).1 rfl
  have hsum : m₂.free + d₁.frames + {f} = m.free + d.frames := by
    rw [howned, hfree]
    abel
  obtain ⟨m', hfv⟩ := freevm_total (d := d₁) (fun g hg => h.valid.ok g (by
    rw [← hsum]
    exact Multiset.mem_add.2 (Or.inl (Multiset.mem_add.2 (Or.inr hg))))) m₂
  have hfree' : m'.free + {f} = m.free + d.frames := by rw [freevm_spec hfv, hsum]
  refine ⟨m', copyBad_eq hfv, fun g hg => ?_, ⟨v, le_rfl, hlt, hz, by omega⟩, f, hfree'⟩
  rw [← hfree', Multiset.mem_add, not_or] at hg
  rw [(freevm_freed hfv).mem g hg.1, htaken.mem g fun hm => ?_]
  rw [hfree, Multiset.mem_add] at hm
  rcases hm with hm | hm
  · exact hg.2 hm
  · rw [Multiset.card_eq_zero.1 hm₁] at hm
    exact absurd hm (Multiset.notMem_zero g)

/-- The page `v` is copied, on a frame for it and perhaps one for its page table. -/
theorem Copying.next {m₁ m₂ : Kmem} {d₁ : Pgdir} {e : Pte} (h : Copying v m d) (hv : v < WINPAGE)
    (hk : kalloc m = (m₁, some f))
    (hmap : mappages d (v * PGSIZE) PGSIZE (f * PGSIZE) e.w e.u (m₁.memmove f e.frame) =
      .ok (m₂, d₁, true)) :
    Copying (v + 1) m₂ d₁ ∧ m₂.free + d₁.frames = m.free + d.frames ∧
      m.free.card + copyFrames v = m₂.free.card + copyFrames (v + 1) := by
  have hN : NPTENTRIES = 1024 := rfl
  have hfree := kalloc_some hk
  have hcard : m.free.card = m₁.free.card + 1 := by
    rw [hfree, Multiset.card_add, Multiset.card_singleton, Nat.add_comm]
  have howned := mapPage_owned hv hmap
  obtain ⟨-, -, hl⟩ := mapPage_spec (hv.trans winpage_lt) hmap
  obtain ⟨hthere, hnew⟩ := mapPage_card (h.none v hv le_rfl) hmap
  rw [Kmem.memmove_free] at howned hthere hnew
  rw [if_pos rfl] at howned
  have hsum : m₂.free + d₁.frames = m.free + d.frames := by
    rw [howned, hfree]
    abel
  have htable := h.table hv
  have hslots := mapLoop_slots (n := 1) (hv.trans winpage_lt) (by rwa [mappages_page] at hmap)
  refine ⟨⟨fun x hx hvx => ?_, fun i hi => ?_, by rw [hsum]; exact h.valid⟩, hsum, ?_⟩
  · rw [hl, if_neg (by rintro ⟨-, rfl⟩; omega)]
    exact h.none x hx (by omega)
  · have hold := h.pde i hi
    rw [hN] at hold ⊢
    constructor
    · intro hs
      rcases hslots.1 i hs with hs | ⟨x, -, h₂, rfl⟩
      · exact (hold.1 hs).trans (Nat.lt_succ_self v)
      · exact (Nat.div_mul_le_self x 1024).trans_lt h₂
    · intro hi'
      by_cases hiv : i * 1024 < v
      · exact hslots.2.1 i (hold.2 hiv)
      · have := hslots.2.2.1 rfl v le_rfl (Nat.lt_succ_self v)
        rwa [show v / NPTENTRIES = i by rw [hN]; omega] at this
  · rw [copyFrames_succ, hcard]
    by_cases hz : v % NPTENTRIES = 0
    · have := (hnew (by rw [htable]; exact not_not.2 hz)).2 rfl
      rw [if_pos hz]
      omega
    · have := (hthere (htable.2 hz)).2
      rw [if_neg hz]
      omega

/-- **The loop of `copyuvm`.** -/
theorem copyLoop_spec (hsz : sz < WINPAGE * PGSIZE) (hfuel : sz ≤ (v + n) * PGSIZE)
    (hmapped : ∀ x, x * PGSIZE < sz → (pgdir.lookup x).isSome)
    (hpar : ∀ x e, x * PGSIZE < sz → pgdir.lookup x = some e → e.frame ∉ m.free + d.frames)
    (h : Copying v m d) :
    (∃ m' d', copyLoop pgdir sz n v d m = .ok (m', some d') ∧ CopiedPages pgdir sz v m m' d d' ∧
        ¬ Leaks sz v m.free.card) ∨
      ∃ m', copyLoop pgdir sz n v d m = .ok (m', none) ∧
        (∀ g ∉ m.free + d.frames, m'.mem g = m.mem g) ∧
        (¬ Leaks sz v m.free.card ∧ m'.free = m.free + d.frames ∨
          Leaks sz v m.free.card ∧ ∃ f, m'.free + {f} = m.free + d.frames) := by
  induction n generalizing v d m with
  | zero => exact Or.inl ⟨m, d, rfl, CopiedPages.done hfuel⟩
  | succ n ih =>
    unfold copyLoop
    by_cases hlt : v * PGSIZE < sz
    swap
    · rw [if_neg hlt]
      exact Or.inl ⟨m, d, rfl, CopiedPages.done (Nat.le_of_not_lt hlt)⟩
    have hv := lt_winpage hsz.le hlt
    obtain ⟨e, he⟩ := Option.isSome_iff_exists.1 (hmapped v hlt)
    obtain ⟨tab, htab, hpte⟩ := Option.bind_eq_some_iff.1 he
    rw [if_pos hlt, htab]
    dsimp only
    rw [hpte]
    rcases hk : kalloc m with ⟨m₁, _ | f⟩
    · obtain ⟨m', hbad, hmem, hend⟩ := copyBad_noFrame sz h hk
      exact Or.inr ⟨m', hbad, hmem, Or.inl hend⟩
    obtain ⟨m₂, d₁, ok, hmap⟩ := mapPage_total (w := e.w) (u := e.u) (hv.trans winpage_lt)
      (h.none v hv le_rfl) f (m₁.memmove f e.frame)
    dsimp only
    rw [hmap]
    cases ok with
    | false =>
      obtain ⟨m', hbad, hmem, hend⟩ := copyBad_noTable h hv hlt hk hmap
      exact Or.inr ⟨m', hbad, hmem, Or.inr hend⟩
    | true =>
      obtain ⟨hnext, hsum, hcount⟩ := h.next hv hk hmap
      have hmove : Taken m (m₁.memmove f e.frame) := (kalloc_taken hk).write (mem_of_kalloc hk)
      have htaken : Taken m m₂ := hmove.trans (mapPage_taken hmap)
      have hfuel' : sz ≤ (v + 1 + n) * PGSIZE := by rwa [show v + 1 + n = v + (n + 1) by omega]
      have hrest := ih (m := m₂) (d := d₁) (v := v + 1) hfuel' (by rwa [hsum]) hnext
      rw [leaks_succ hcount, hsum] at hrest
      dsimp only
      rcases hrest with ⟨m', d', hloop, hcopy, hleak⟩ | ⟨m', hloop, hmem, hleak⟩
      · exact Or.inl ⟨m', d', hloop, hcopy.cons h.valid hpar hv hlt he hk hmap, hleak⟩
      · refine Or.inr ⟨m', hloop, fun g hg => ?_, hleak⟩
        rw [hmem g hg, htaken.mem g fun hm => hg (Multiset.mem_add.2 (Or.inl hm))]

/-- With two frames for each round, the loop copies all pages. -/
theorem copyLoop_enough (hsz : sz < WINPAGE * PGSIZE)
    (hmapped : ∀ x, x * PGSIZE < sz → (pgdir.lookup x).isSome)
    (hnone : ∀ x < WINPAGE, v ≤ x → d.lookup x = none) (hcard : 2 * n ≤ m.free.card) :
    ∃ m' d', copyLoop pgdir sz n v d m = .ok (m', some d') := by
  induction n generalizing v d m with
  | zero => exact ⟨m, d, rfl⟩
  | succ n ih =>
    unfold copyLoop
    by_cases hlt : v * PGSIZE < sz
    swap
    · exact ⟨m, d, if_neg hlt⟩
    have hv := lt_winpage hsz.le hlt
    obtain ⟨e, he⟩ := Option.isSome_iff_exists.1 (hmapped v hlt)
    obtain ⟨tab, htab, hpte⟩ := Option.bind_eq_some_iff.1 he
    obtain ⟨m₁, f, hk, hcard₁⟩ := kalloc_enough (m := m) (by omega)
    obtain ⟨m₂, d₁, hmap, hcard₂⟩ := mapPage_enough (w := e.w) (u := e.u) (hv.trans winpage_lt)
      (hnone v hv le_rfl) f (m := m₁.memmove f e.frame) (by rw [Kmem.memmove_free]; omega)
    rw [Kmem.memmove_free] at hcard₂
    obtain ⟨-, -, hl⟩ := mapPage_spec (hv.trans winpage_lt) hmap
    rw [if_pos hlt, htab]
    dsimp only
    rw [hpte]
    dsimp only
    rw [hk]
    dsimp only
    rw [hmap]
    refine ih (fun x hx hvx => ?_) (by omega)
    rw [hl, if_neg (by omega)]
    exact hnone x hx (by omega)

end Copy

/-- `copyuvm` with `c` frames left gets to a page with a frame for it and none for its page table. -/
def CopyLeaks (sz c : ℕ) : Prop := ∃ j, NPTENTRIES * j * PGSIZE < sz ∧ c = 66 + 1025 * j

theorem leaks_iff {sz c : ℕ} : Leaks sz 0 c ↔ CopyLeaks sz (c + 65) := by
  have hN : NPTENTRIES = 1024 := rfl
  have hframes : ∀ j, copyFrames (NPTENTRIES * j) = 1025 * j := by
    intro j
    rw [copyFrames, hN]
    omega
  constructor
  · rintro ⟨x, -, hsz, hmod, heq⟩
    obtain ⟨j, rfl⟩ := Nat.dvd_of_mod_eq_zero hmod
    refine ⟨j, hsz, ?_⟩
    rw [hframes, show copyFrames 0 = 0 from rfl] at heq
    omega
  · rintro ⟨j, hsz, heq⟩
    refine ⟨NPTENTRIES * j, Nat.zero_le _, hsz, Nat.mul_mod_right _ _, ?_⟩
    rw [hframes, show copyFrames 0 = 0 from rfl]
    omega

/-- A copy of the memory of the directory `pgdir`, all on frames taken from the free list. -/
structure CopiedMemory (pgdir : Pgdir) (sz : ℕ) (m m' : Kmem) (d' : Pgdir) : Prop where
  free : m'.free + d'.frames = m.free
  taken : Taken m m'
  mapped : ∀ v < WINPAGE, (d'.lookup v).isSome ↔ v * PGSIZE < sz
  copied : ∀ v < WINPAGE, v * PGSIZE < sz → ∃ e f, pgdir.lookup v = some e ∧
    d'.lookup v = some ⟨f, e.w, e.u⟩ ∧ m'.mem f = m.mem e.frame

/-- **`copyuvm`** copies the memory, or gives back what it took, but for one frame where it leaks. -/
theorem copyuvm_spec {pgdir : Pgdir} {sz : ℕ} {m : Kmem} (h : Memory pgdir sz m) :
    (∃ m' d', copyuvm pgdir sz m = .ok (m', some d') ∧ CopiedMemory pgdir sz m m' d' ∧
        ¬ CopyLeaks sz m.free.card) ∨
      ∃ m', copyuvm pgdir sz m = .ok (m', none) ∧ (∀ g ∉ m.free, m'.mem g = m.mem g) ∧
        (¬ CopyLeaks sz m.free.card ∧ m'.free = m.free ∨
          CopyLeaks sz m.free.card ∧ ∃ f, m'.free + {f} = m.free) := by
  have hmapped : ∀ x, x * PGSIZE < sz → (pgdir.lookup x).isSome := fun x hx =>
    (h.mapped x (lt_winpage h.size.le hx)).2 hx
  have hown : ∀ x e, x * PGSIZE < sz → pgdir.lookup x = some e → e.frame ∉ m.free := fun x e hx he =>
    h.valid.not_free (lt_winpage h.size.le hx) he
  have hvalid : Valid m.free := h.valid.mono (Multiset.le_add_right _ _)
  unfold copyuvm
  rcases setupkvm_spec hvalid.ok with ⟨m₁, d, hset, hnew⟩ | ⟨m₁, hset, hfree, hlt, hmem⟩
  swap
  · rw [hset]
    refine Or.inr ⟨m₁, rfl, hmem, Or.inl ⟨?_, hfree⟩⟩
    rintro ⟨j, -, hj⟩
    omega
  rw [hset]
  have hcopying : Copying 0 m₁ d := by
    refine ⟨fun x hx _ => hnew.lookup x (hx.trans_le winpage_le), fun i hi => ?_, by rwa [hnew.free]⟩
    rw [hnew.pde_none hi]
    exact iff_of_false Bool.false_ne_true (Nat.not_lt_zero _)
  have hloop := copyLoop_spec h.size (le_fuel 0 sz (by decide)) hmapped
    (by rw [hnew.free]; exact hown) hcopying
  rw [leaks_iff, ← hnew.card, hnew.free] at hloop
  rcases hloop with ⟨m', d', hcopy, hc, hleak⟩ | ⟨m', hcopy, hmem, hleak⟩
  · refine Or.inl ⟨m', d', hcopy, ⟨?_, hnew.taken.trans hc.taken, fun v hv => ?_, fun v hv hvsz => ?_⟩,
      hleak⟩
    · rw [hc.conserved, hnew.free]
    · by_cases hvsz : v * PGSIZE < sz
      · obtain ⟨e, f, -, hl, -⟩ := hc.copied v (Nat.zero_le v) hvsz
        rw [hl]
        exact iff_of_true rfl hvsz
      · rw [hc.lookup v fun hv' => hvsz hv'.2, hnew.lookup v (hv.trans_le winpage_le)]
        exact iff_of_false Bool.false_ne_true hvsz
    · obtain ⟨e, f, he, hl, hm⟩ := hc.copied v (Nat.zero_le v) hvsz
      exact ⟨e, f, he, hl, hm.trans (hnew.taken.mem _ (hown v e hvsz he))⟩
  · refine Or.inr ⟨m', hcopy, fun g hg => ?_, hleak⟩
    rw [hmem g hg, hnew.taken.mem g hg]

theorem copyuvm_enough {pgdir : Pgdir} {sz : ℕ} {m : Kmem} (hok : ∀ f ∈ m.free, kfreeOk f)
    (hsz : sz < WINPAGE * PGSIZE) (hmapped : ∀ x, x * PGSIZE < sz → (pgdir.lookup x).isSome)
    (hcard : 65 + 2 * (sz / PGSIZE + 1) ≤ m.free.card) :
    ∃ m' d', copyuvm pgdir sz m = .ok (m', some d') := by
  unfold copyuvm
  rcases setupkvm_spec hok with ⟨m₁, d, hset, hnew⟩ | ⟨m₁, -, -, hlt, -⟩
  swap
  · omega
  have hcard₁ := hnew.card
  rw [hset]
  exact copyLoop_enough hsz hmapped (fun x hx _ => hnew.lookup x (hx.trans_le winpage_le)) (by omega)

/-! ## `fork` -/

/-- The process `p` runs; its memory is that of the directory `d`. -/
structure Parent (p : Slot) (d : Pgdir) (s : Machine) : Prop where
  state : (s.table.proc p).state = .running
  pgdir : s.pgdir p = some d
  memory : Memory d (s.sz p) s.kmem

section Fork

variable {s s' : Machine} {p np : Slot} {d d' : Pgdir} {t : Ptable} {m m₁ m' : Kmem} {k : Frame}

theorem allocproc_none (h : allocproc s.table = none) : ∀ q, (s.table.proc q).state ≠ .unused := by
  intro q hq
  have hnone := Option.map_eq_none_iff.1 h
  exact List.find?_eq_none.1 hnone q (List.mem_finRange q) (decide_eq_true hq)

theorem NotForked.refl (p : Slot) (s : Machine) : NotForked p s s :=
  ⟨rfl, fun _ => rfl, rfl, rfl, rfl, rfl, rfl, rfl, rfl, fun _ _ => rfl⟩

theorem notForked_of {g : Slot → Option Pgdir} (hp : p ≠ np)
    (hnp : (s.table.proc np).state = .unused) (ht : ∀ q ≠ np, t.proc q = s.table.proc q)
    (hg : g p = s.pgdir p) (hfree : m'.free = s.kmem.free)
    (hmem : ∀ f ∉ s.kmem.free, m'.mem f = s.kmem.mem f) :
    NotForked p s { s with table := freeEmbryo np t, kmem := m', pgdir := g
                           kstack := Function.update s.kstack np none } := by
  have hother : ∀ q ≠ np, (freeEmbryo np t).proc q = s.table.proc q := fun q hq => by
    rw [freeEmbryo, Ptable.setProc_of_ne _ _ hq, ht q hq]
  refine ⟨hfree, fun q => ?_, rfl, hother p hp, hg, Function.update_of_ne hp _ _, rfl, rfl, rfl, hmem⟩
  by_cases hq : q = np
  · subst hq
    have hself : ((freeEmbryo q t).proc q).state = .unused := by
      rw [freeEmbryo, Ptable.setProc_self]
    rw [hnp]
    exact hself
  · exact congrArg Proc.state (hother q hq)

theorem fork_eq_forkInto {pgdir : Pgdir} (ha : allocproc s.table = some (np, t))
    (hk : kalloc s.kmem = (m, some k)) (hp : s.pgdir p = some pgdir)
    (hc : copyuvm pgdir (s.sz p) m = .ok (m', some d)) :
    s.fork p = s.forkInto p np (allocprocInit np t) k d m' := by
  unfold Machine.fork
  rw [ha]
  dsimp only
  rw [hk]
  dsimp only
  rw [hp]
  dsimp only
  rw [hc]

theorem forksExactly_of_none (hf : s.fork p = .ok (s', none)) :
    ForksExactly p d s ↔ NotForked p s s' := by
  refine ⟨fun h => h.not_forked s' hf, fun h => ⟨fun s₁ q h₁ => ?_, fun s₁ h₁ => ?_, fun _ => ⟨_, hf⟩⟩⟩
  · rw [hf] at h₁
    cases h₁
  · rw [hf] at h₁
    obtain rfl := congrArg Prod.fst (Except.ok.inj h₁)
    exact h

/-- When `copyuvm` succeeds. -/
theorem forksExactly_of_forkInto (hf : s.fork p = s.forkInto p np t k d' m')
    (h : ∀ sys, Forked p np d s
      { table := forkCommit np (forkCopy p np t), kmem := m', sys := sys
        sz := Function.update s.sz np (s.sz p)
        pgdir := Function.update s.pgdir np (some d')
        kstack := Function.update s.kstack np (some k)
        tf := Function.update s.tf np { s.tf p with eax := 0 }
        name := Function.update s.name np ((s.name p).take 15) }) : ForksExactly p d s := by
  have hcases : (∃ e, s.fork p = .error e ∧ Sysfile.fork p (some np) s.sys = .error e) ∨
      ∃ sys, s.fork p = .ok ({ table := forkCommit np (forkCopy p np t), kmem := m', sys := sys
                               sz := Function.update s.sz np (s.sz p)
                               pgdir := Function.update s.pgdir np (some d')
                               kstack := Function.update s.kstack np (some k)
                               tf := Function.update s.tf np { s.tf p with eax := 0 }
                               name := Function.update s.name np ((s.name p).take 15) }, some np) := by
    rw [hf, Machine.forkInto]
    rcases Sysfile.fork p (some np) s.sys with e | ⟨r, sys⟩
    · exact Or.inl ⟨e, rfl, rfl⟩
    · exact Or.inr ⟨sys, rfl⟩
  rcases hcases with ⟨e, he, hsys⟩ | ⟨sys, hok⟩
  · refine ⟨fun s₁ q h₁ => ?_, fun s₁ h₁ => ?_, fun hret => ?_⟩
    · rw [he] at h₁
      cases h₁
    · rw [he] at h₁
      cases h₁
    · obtain ⟨r, hr⟩ := hret np
      rw [hsys] at hr
      cases hr
  · refine ⟨fun s₁ q h₁ => ?_, fun s₁ h₁ => ?_, fun _ => ⟨_, hok⟩⟩
    · rw [hok] at h₁
      obtain ⟨rfl, hq⟩ := Prod.mk.inj (Except.ok.inj h₁)
      obtain rfl := Option.some.inj hq
      exact h sys
    · rw [hok] at h₁
      cases h₁

/-- With a slot for the child. -/
theorem forksExactly_iff (h : Parent p d s) (ha : allocproc s.table = some (np, t)) :
    ForksExactly p d s ↔
      ∀ j, NPTENTRIES * j * PGSIZE < s.sz p → s.kmem.free.card ≠ 67 + 1025 * j := by
  have hvalid : Valid s.kmem.free := h.memory.valid.mono (Multiset.le_add_right _ _)
  obtain ⟨hnp, ht⟩ := allocproc_spec ha
  have hpnp : p ≠ np := by
    rintro rfl
    rw [h.state] at hnp
    cases hnp
  have hother : ∀ q ≠ np, t.proc q = s.table.proc q := fun q hq => by
    rw [ht]
    exact Ptable.setProc_of_ne s.table
      (fun r => { r with state := .embryo, pid := s.table.nextpid }) hq
  rcases hk : kalloc s.kmem with ⟨m₁, _ | k⟩
  · -- no kernel stack
    have hf : s.fork p = .ok ({ s with table := freeEmbryo np t
                                       kstack := Function.update s.kstack np none }, none) := by
      unfold Machine.fork
      rw [ha]
      dsimp only
      rw [hk]
    refine iff_of_true ((forksExactly_of_none hf).2
      (notForked_of hpnp hnp hother rfl rfl fun _ _ => rfl)) fun j _ => ?_
    rw [(kalloc_none hk).2, Multiset.card_zero]
    omega
  have hfree := kalloc_some hk
  have hcard : s.kmem.free.card = m₁.free.card + 1 := by
    rw [hfree, Multiset.card_add, Multiset.card_singleton, Nat.add_comm]
  have hinit : ∀ q ≠ np, (allocprocInit np t).proc q = s.table.proc q := fun q hq => by
    rw [allocprocInit, Ptable.setProc_of_ne _ _ hq, hother q hq]
  have hleak : (∀ j, NPTENTRIES * j * PGSIZE < s.sz p → s.kmem.free.card ≠ 67 + 1025 * j) ↔
      ¬ CopyLeaks (s.sz p) m₁.free.card := by
    rw [CopyLeaks, not_exists, hcard]
    refine forall_congr' fun j => ?_
    rw [not_and]
    exact imp_congr_right fun _ => by omega
  have hmemory : Memory d (s.sz p) m₁ := ⟨h.memory.size, h.memory.mapped,
    h.memory.valid.mono (Multiset.add_le_add_right (kalloc_taken hk).le)⟩
  have hkok : kfreeOk k := hvalid.ok k (mem_of_kalloc hk)
  rw [hleak]
  rcases copyuvm_spec hmemory with ⟨m', d', hcopy, hc, hno⟩ | ⟨m', hcopy, hmem, hend⟩
  · -- a child
    have hf := fork_eq_forkInto ha hk h.pgdir hcopy
    have hall : m'.free + ({k} + d'.frames) = s.kmem.free := by
      rw [hfree, ← hc.free]
      abel
    refine iff_of_true (forksExactly_of_forkInto hf fun sys => ⟨Function.update_self _ _ _,
      ⟨d', k, Function.update_self _ _ _, Function.update_self _ _ _, hall, ?_, hc.mapped, ?_⟩, ?_⟩) hno
    · exact Multiset.nodup_of_le (hall ▸ Multiset.le_add_left _ _) hvalid.nodup
    · intro v hv hvsz
      obtain ⟨e, f, he, hl, hm⟩ := hc.copied v hv hvsz
      exact ⟨e, f, he, hl, hm.trans (congrFun (kalloc_mem hk) _)⟩
    · intro f hf'
      have hf₁ : f ∉ m₁.free := fun hm => hf' (Multiset.mem_of_le (kalloc_taken hk).le hm)
      exact (hc.taken.mem f hf₁).trans (congrFun (kalloc_mem hk) _)
  · -- no copy: the kernel stack is freed
    obtain ⟨m₂, hkf⟩ := kfree_total hkok m'
    have hf : s.fork p = .ok ({ s with table := freeEmbryo np (allocprocInit np t), kmem := m₂
                                       pgdir := Function.update s.pgdir np none
                                       kstack := Function.update s.kstack np none }, none) := by
      unfold Machine.fork
      rw [ha]
      dsimp only
      rw [hk]
      dsimp only
      rw [h.pgdir]
      dsimp only
      rw [hcopy]
      dsimp only
      rw [hkf]
    have hfree₂ := (kfree_spec hkf).1
    rw [forksExactly_of_none hf]
    rcases hend with ⟨hno, hback⟩ | ⟨hyes, f, hlost⟩
    · have hall : m₂.free = s.kmem.free := by rw [hfree₂, hback, hfree]
      refine iff_of_true (notForked_of hpnp hnp hinit (Function.update_of_ne hpnp _ _) hall ?_) hno
      intro g hg
      have hg₁ : g ∉ m₁.free := fun hm => hg (Multiset.mem_of_le (kalloc_taken hk).le hm)
      rw [(kfree_freed hkf).mem g (by rwa [hall]), hmem g hg₁, kalloc_mem hk]
    · refine iff_of_false (fun hn => ?_) (not_not.2 hyes)
      have hcount : m₂.free.card = s.kmem.free.card := congrArg Multiset.card hn.free
      have hlost' := congrArg Multiset.card hlost
      rw [Multiset.card_add, Multiset.card_singleton] at hlost'
      rw [hfree₂, hcard, Multiset.card_add, Multiset.card_singleton] at hcount
      omega

/-- **`fork` copies exactly or not at all** unless it finds a free slot, a kernel stack, a directory
and frames up to a page whose page table it cannot get: the frame for that page is lost. -/
theorem fork_iff (h : Parent p d s) : ForksExactly p d s ↔
    (∀ q, (s.table.proc q).state ≠ .unused) ∨
      ∀ j, NPTENTRIES * j * PGSIZE < s.sz p → s.kmem.free.card ≠ 67 + 1025 * j := by
  rcases ha : allocproc s.table with _ | ⟨np, t⟩
  · have hf : s.fork p = .ok (s, none) := by
      unfold Machine.fork
      rw [ha]
    exact iff_of_true ((forksExactly_of_none hf).2 (.refl p s)) (Or.inl (allocproc_none ha))
  · have hslot : ¬ ∀ q, (s.table.proc q).state ≠ .unused := fun hall =>
      hall np (allocproc_spec ha).1
    rw [forksExactly_iff h ha, or_iff_right hslot]

end Fork

/-! ## A process with one page -/

/-- One process, with the free frames `l`. -/
def oneProcess (l : List ℕ) : Machine where
  table := boot.setProc Sysfile.initproc fun r => { r with state := .running }
  kmem := ⟨l, fun _ _ => 0⟩
  sys := Sysfile.sysBoot ⟨readsb fun _ _ => 0, fun _ _ => 0, fun _ => none, []⟩
  sz _ := 4096
  pgdir _ := some onePage
  kstack _ := none
  tf _ := ⟨0, fun _ => 0⟩
  name _ := []

theorem oneProcess_parent {l : List ℕ} (hl : l.Nodup) (hge : ∀ f ∈ l, 400 ≤ f ∧ f < 500) :
    Parent Sysfile.initproc onePage (oneProcess l) where
  state := by rw [oneProcess, Ptable.setProc_self]
  pgdir := rfl
  memory := onePage_room hl hge _

theorem manyFree_parent {n : ℕ} (hn : n ≤ 100) :
    Parent Sysfile.initproc onePage (oneProcess (List.range' 400 n)) :=
  oneProcess_parent List.nodup_range' fun f hf => by
    obtain ⟨hge, hlt⟩ := List.mem_range'_1.1 hf
    exact ⟨hge, by omega⟩

theorem oneProcess_forks : ∃ s' np,
    (oneProcess (List.range' 400 100)).fork Sysfile.initproc = .ok (s', some np) := by
  have hmemory := (manyFree_parent le_rfl).memory
  have hcard : (oneProcess (List.range' 400 100)).kmem.free.card = 100 := List.length_range'
  obtain ⟨m, k, hk, hcard₁⟩ : ∃ m k, kalloc (oneProcess (List.range' 400 100)).kmem = (m, some k) ∧ _ :=
    kalloc_enough (by omega)
  have hok : ∀ f ∈ m.free, kfreeOk f := fun f hf =>
    (hmemory.valid.mono (Multiset.le_add_right _ _)).ok f (by
      rw [kalloc_some hk]
      exact Multiset.mem_add.2 (.inr hf))
  obtain ⟨m', d, hcopy⟩ : ∃ m' d, copyuvm onePage 4096 m = .ok (m', some d) :=
    copyuvm_enough hok hmemory.size
      (fun x hx => (hmemory.mapped x (lt_winpage hmemory.size.le hx)).2 hx)
      (by dsimp only [PGSIZE]; omega)
  obtain ⟨r, hsys⟩ : ∃ r, Sysfile.fork Sysfile.initproc (some 1)
    (oneProcess (List.range' 400 100)).sys = .ok r := ⟨_, rfl⟩
  obtain ⟨t, ha⟩ : ∃ t, allocproc (oneProcess (List.range' 400 100)).table = some (1, t) := ⟨_, rfl⟩
  have hf := fork_eq_forkInto (p := Sysfile.initproc) ha hk rfl hcopy
  rw [Machine.forkInto, hsys] at hf
  exact ⟨_, _, hf⟩

/-- With 100 free frames there is a child, with a copy of the page. -/
theorem fork_iff_child :
    (∃ s' np, (oneProcess (List.range' 400 100)).fork Sysfile.initproc = .ok (s', some np)) ∧
      ForksExactly Sysfile.initproc onePage (oneProcess (List.range' 400 100)) := by
  have hcard : (oneProcess (List.range' 400 100)).kmem.free.card = 100 := List.length_range'
  have hne : ∀ j, 100 ≠ 67 + 1025 * j := fun j => by omega
  exact ⟨oneProcess_forks, (fork_iff (manyFree_parent le_rfl)).2 (Or.inr fun j _ => by
    rw [hcard]
    exact hne j)⟩

/-- 67 frames are free: one for the kernel stack, 65 for the directory, one for the page. -/
theorem not_forksExactly : ¬ ∀ (p : Slot) (d : Pgdir) (s : Machine), Parent p d s →
    ForksExactly p d s := by
  intro hall
  have hparent := manyFree_parent (show 67 ≤ 100 by decide)
  obtain ⟨t, ha⟩ : ∃ t, allocproc (oneProcess (List.range' 400 67)).table = some (1, t) := ⟨_, rfl⟩
  have hcard := (forksExactly_iff hparent ha).1 (hall _ _ _ hparent) 0 (by decide)
  exact hcard (by
    show (List.range' 400 67).length = 67
    exact List.length_range')

end OsPlayground
