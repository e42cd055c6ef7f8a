import OsPlayground.Vm.Isolation

/-!
# Memory at the start

What `main` does with memory before `userinit`: `kinit1`, `kvmalloc`, `startothers` and `kinit2`.

* `freerange`, `startothers`, `bootMemory`: the functions.
* `bootMemory_spec`: they do not panic, and free every frame that is not for the kernel once; what is
  used before `kinit2` is in the 4 MB that `entrypgdir` maps.
* **`boot_isolated`**: with this, the processes are isolated in every run from there.
-/

namespace OsPlayground

open Lib

/-! ## The code -/

abbrev NCPU : ℕ := 8

/-- The loop of `freerange`: `n` pages from the frame `f`. -/
def freeLoop : ℕ → Frame → Kmem → Except Panic Kmem
  | 0, _, m => .ok m
  | n + 1, f, m =>
    match kfree f m with
    | .error s => .error s
    | .ok m => freeLoop n (f + 1) m

/-- `freerange`, with it `kinit1` and `kinit2`. It goes on while there is a page below `vend`. -/
def freerange (vstart vend : ℕ) (m : Kmem) : Except Panic Kmem :=
  freeLoop ((vend - PGROUNDUP vstart) / PGSIZE) ((PGROUNDUP vstart - KERNBASE) / PGSIZE) m

/-- `startothers` for `n` other CPUs: the stack of each. -/
def startothers : ℕ → Kmem → Kmem × List (Option Frame)
  | 0, m => (m, [])
  | n + 1, m =>
    match kalloc m with
    | (m, kstack) => match startothers n m with
      | (m, kstacks) => (m, kstack :: kstacks)

/-- The end of what `entrypgdir` maps. -/
abbrev ENTRYEND : ℕ := KERNBASE + 4 * 1024 * 1024

/-- `main` up to `userinit`, with `ncpu` CPUs: the directory `kpgdir` and the kstacks. -/
def bootMemory (ncpu : ℕ) (m : Kmem) :
    Except Panic (Kmem × Option Pgdir × List (Option Frame)) := do
  let m ← freerange kernelEnd ENTRYEND m
  let (m, kpgdir) ← setupkvm m
  let (m, kstacks) := startothers (ncpu - 1) m
  let m ← freerange ENTRYEND (KERNBASE + PHYSTOP) m
  return (m, kpgdir, kstacks)

/-! ## What it leaves -/

section Boot

variable {m m' : Kmem} {n f : ℕ}

theorem except_ok_bind {α β : Type} (a : α) (k : α → Except Panic β) :
    (Except.ok a >>= k) = k a := rfl

theorem freeLoop_spec (hok : ∀ x : ℕ, f ≤ x → x < f + n → kfreeOk x) :
    ∃ m', freeLoop n f m = .ok m' ∧ m'.free = (List.range' f n : Multiset Frame) + m.free := by
  induction n generalizing f m with
  | zero => exact ⟨m, rfl, (zero_add _).symm⟩
  | succ n ih =>
    unfold freeLoop
    rw [kfree, if_pos (hok f le_rfl (by omega))]
    obtain ⟨m', hrun, hfree⟩ := ih (f := f + 1)
      (m := { m.memset f 1 with freelist := f :: m.freelist }) fun x h₁ h₂ =>
        hok x (Nat.le_of_succ_le h₁) (by omega)
    refine ⟨m', hrun, ?_⟩
    have hcons : Kmem.free { m.memset f 1 with freelist := f :: m.freelist } = {f} + m.free := rfl
    rw [hfree, hcons, List.range'_succ, ← Multiset.cons_coe, ← Multiset.singleton_add,
      add_left_comm, add_assoc]

theorem kfreeOk_iff {x : ℕ} : kfreeOk x ↔ 288 ≤ x ∧ x < 57344 := by
  change 0x8011fc88 ≤ 0x80000000 + x * 4096 ∧ x * 4096 < 0xE000000 ↔ _
  omega

theorem kinit1_spec (m : Kmem) : ∃ m', freerange kernelEnd ENTRYEND m = .ok m' ∧
    m'.free = (List.range' 288 736 : Multiset Frame) + m.free := by
  have hn : (ENTRYEND - PGROUNDUP kernelEnd) / PGSIZE = 736 := by decide
  have hf : (PGROUNDUP kernelEnd - KERNBASE) / PGSIZE = 288 := by decide
  rw [freerange, hn, hf]
  exact freeLoop_spec fun x h₁ h₂ => kfreeOk_iff.2 ⟨h₁, by omega⟩

theorem kinit2_spec (m : Kmem) : ∃ m', freerange ENTRYEND (KERNBASE + PHYSTOP) m = .ok m' ∧
    m'.free = (List.range' 1024 56320 : Multiset Frame) + m.free := by
  have hn : (KERNBASE + PHYSTOP - PGROUNDUP ENTRYEND) / PGSIZE = 56320 := by decide
  have hf : (PGROUNDUP ENTRYEND - KERNBASE) / PGSIZE = 1024 := by decide
  rw [freerange, hn, hf]
  exact freeLoop_spec fun x h₁ h₂ => kfreeOk_iff.2 ⟨by omega, by omega⟩

section Ranges

variable {a n b k : ℕ}

theorem mem_ranges {f : ℕ} : f ∈ (List.range' a n : Multiset ℕ) + List.range' b k ↔
    a ≤ f ∧ f < a + n ∨ b ≤ f ∧ f < b + k := by
  rw [Multiset.mem_add, Multiset.mem_coe, Multiset.mem_coe, List.mem_range'_1, List.mem_range'_1]

theorem nodup_ranges (h : a + n ≤ b) :
    ((List.range' a n : Multiset ℕ) + List.range' b k).Nodup := by
  refine Multiset.nodup_add.2 ⟨Multiset.coe_nodup.2 List.nodup_range',
    Multiset.coe_nodup.2 List.nodup_range', Multiset.disjoint_left.2 fun hx hy => ?_⟩
  rw [Multiset.mem_coe, List.mem_range'_1] at hx hy
  omega

end Ranges

theorem startothers_spec (h : n ≤ m.free.card) : ∃ m', ∃ fs : List Frame,
    startothers n m = (m', fs.map some) ∧ fs.length = n ∧
      m.free = (fs : Multiset Frame) + m'.free := by
  induction n generalizing m with
  | zero => exact ⟨m, [], rfl, rfl, (zero_add _).symm⟩
  | succ n ih =>
    unfold startothers
    rcases hk : kalloc m with ⟨m₁, _ | f⟩
    · rw [(kalloc_none hk).2, Multiset.card_zero] at h
      omega
    · have hfree := kalloc_some hk
      rw [hfree, Multiset.card_add, Multiset.card_singleton] at h
      obtain ⟨m', fs, hs, hlen, hfs⟩ := ih (m := m₁) (by omega)
      refine ⟨m', f :: fs, ?_, by rw [List.length_cons, hlen], ?_⟩
      · dsimp only
        rw [hs]
        rfl
      · rw [hfree, hfs, ← Multiset.cons_coe, ← Multiset.singleton_add, add_assoc]

/-- Memory after the start. With an empty free list before, every frame that `kfree` takes is free,
in `kpgdir` or the stack of a CPU, and only once. The last two are in the 4 MB of `entrypgdir`. -/
theorem bootMemory_spec {ncpu : ℕ} (hn : ncpu ≤ NCPU) (hm : m.freelist = []) :
    ∃ m' d, ∃ fs : List Frame, bootMemory ncpu m = .ok (m', some d, fs.map some) ∧
      fs.length = ncpu - 1 ∧ (m'.free + (d.frames + fs)).Nodup ∧
      (∀ f, f ∈ m'.free + (d.frames + fs) ↔ kfreeOk f) ∧
      (∀ f ∈ d.frames + fs, KERNBASE + f * PGSIZE < ENTRYEND) ∧ d.slots = kernelSlots := by
  have hempty : m.free = 0 := by
    rw [Kmem.free, hm]
    rfl
  have hncpu : ncpu ≤ 8 := hn
  obtain ⟨m₁, h₁, hfree₁⟩ := kinit1_spec m
  rw [hempty, add_zero] at hfree₁
  have hlow : ∀ f : ℕ, f ∈ m₁.free → 288 ≤ f ∧ f < 1024 := by
    intro f hf
    rw [hfree₁, Multiset.mem_coe, List.mem_range'_1] at hf
    exact hf
  have hcard : m₁.free.card = 736 := by
    rw [hfree₁, Multiset.coe_card, List.length_range']
  have hok : ∀ f : ℕ, f ∈ m₁.free → kfreeOk f := by
    intro f hf
    have := hlow f hf
    exact kfreeOk_iff.2 ⟨this.1, by omega⟩
  rcases setupkvm_spec hok with ⟨m₂, d, hset, hnew⟩ | ⟨m₂, -, -, hlt, -⟩
  swap
  · omega
  have hcard₂ := hnew.card
  obtain ⟨m₃, fs, hstart, hlen, hfs⟩ := startothers_spec (m := m₂) (n := ncpu - 1) (by omega)
  obtain ⟨m', h₂, hfree₂⟩ := kinit2_spec m₃
  have hboot : bootMemory ncpu m = .ok (m', some d, fs.map some) := by
    unfold bootMemory
    rw [h₁, except_ok_bind, hset, except_ok_bind]
    dsimp only
    rw [hstart]
    dsimp only
    rw [h₂, except_ok_bind]
    rfl
  -- what `kinit1` has freed is in use or still free when `kinit2` adds the rest
  have husedfree : m₁.free = m₃.free + (d.frames + fs) := by
    rw [← hnew.free, hfs]
    abel
  have hall : m'.free + (d.frames + fs) = (List.range' 288 736 : Multiset Frame) +
      (List.range' 1024 56320 : Multiset Frame) := by
    rw [← hfree₁, husedfree, hfree₂]
    abel
  refine ⟨m', d, fs, hboot, hlen, ?_, fun f => ?_, fun f hf => ?_, hnew.slots⟩
  · rw [hall]
    exact nodup_ranges (by omega)
  · rw [hall, kfreeOk_iff]
    refine mem_ranges.trans ?_
    omega
  · have hlt := (hlow f (husedfree ▸ Multiset.mem_add.2 (.inr hf))).2
    simp only [ENTRYEND, KERNBASE, PGSIZE]
    omega

/-- **The start, and every run from there.** -/
theorem boot_isolated {ncpu : ℕ} (hn : ncpu ≤ NCPU) (hm : m.freelist = []) :
    ∃ m' d, ∃ fs : List Frame, bootMemory ncpu m = .ok (m', some d, fs.map some) ∧
      fs.length = ncpu - 1 ∧ (m'.free + (d.frames + fs)).Nodup ∧
      (∀ f, f ∈ m'.free + (d.frames + fs) ↔ kfreeOk f) ∧
      (∀ f ∈ d.frames + fs, KERNBASE + f * PGSIZE < ENTRYEND) ∧ d.slots = kernelSlots ∧
      ∀ es, Throughout Spaces.next Spaces.Isolated es (Spaces.start m') := by
  obtain ⟨m', d, fs, hboot, hlen, hnodup, hall, hlow, hslots⟩ := bootMemory_spec hn hm
  have hvalid : Valid m'.free := ⟨(Multiset.nodup_add.1 hnodup).1, fun f hf =>
    (hall f).1 (Multiset.mem_add.2 (.inl hf))⟩
  exact ⟨m', d, fs, hboot, hlen, hnodup, hall, hlow, hslots, fun es =>
    throughout_of_inv (fun _ _ _ h he => Spaces.next_isolated h he) (Spaces.start_isolated hvalid)⟩

/-- Two CPUs. -/
theorem boot_isolated_two : ∃ m' d, ∃ fs : List Frame,
    bootMemory 2 ⟨[], fun _ _ => 0⟩ = .ok (m', some d, fs.map some) ∧
      fs.length = 2 - 1 ∧ (m'.free + (d.frames + fs)).Nodup ∧
      (∀ f, f ∈ m'.free + (d.frames + fs) ↔ kfreeOk f) ∧
      (∀ f ∈ d.frames + fs, KERNBASE + f * PGSIZE < ENTRYEND) ∧ d.slots = kernelSlots ∧
      ∀ es, Throughout Spaces.next Spaces.Isolated es (Spaces.start m') :=
  boot_isolated (by decide) rfl

end Boot

end OsPlayground
