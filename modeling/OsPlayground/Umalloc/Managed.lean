import Mathlib.Algebra.BigOperators.Group.List.Basic
import Mathlib.Algebra.Ring.Nat
import OsPlayground.Lib.Run
import OsPlayground.Umalloc.Search

/-!
# Disjoint blocks

* `State`, `step`: a process that calls `malloc` and `free`, with the blocks that it has.
* `Managed`: the blocks are disjoint, the free list is in order, and no memory is lost.
* **`malloc_free`**: this holds throughout a run without requests of 2 GiB.
* `not_malloc_free`: such a request gets a block that is too small.
-/

namespace OsPlayground

namespace Umalloc

open Lib

/-- A process, with the results of `malloc` that it has not freed and the numbers of bytes. -/
structure State where
  heap : Heap
  live : List (ℕ × ℕ) := []

/-- A call of a program. -/
inductive Call
  | malloc (nbytes : ℕ) (granted : ℕ → Bool)
  | free (ap : ℕ)

/-- The call on the heap. -/
def exec (base rounds : ℕ) : Call → State → Except Stop State
  | .malloc nbytes granted, s => (malloc base rounds granted nbytes s.heap).map fun x =>
    { heap := x.2, live := if x.1 = 0 then s.live else (x.1, nbytes) :: s.live }
  | .free ap, s => (free rounds ap s.heap).map fun h =>
    { heap := h, live := s.live.filter fun b => decide (b.1 ≠ ap) }

/-- `malloc` with any `uint`, `free` of a block that was obtained and not freed. -/
def Call.allowed : Call → State → Bool
  | .malloc nbytes _, _ => decide (nbytes < 2 ^ 32)
  | .free ap, s => decide (ap ∈ s.live.map Prod.fst)

/-- One call, `none` when it is not allowed or does not return. -/
def step (base rounds : ℕ) (c : Call) (s : State) : Option State :=
  if c.allowed s then (exec base rounds c s).toOption else none

/-- A request whose units, as a number of bytes, are positive as an `int`. -/
def Call.Small : Call → Prop
  | .malloc nbytes _ => nbytes ≤ 2 ^ 31 - 16
  | .free _ => True

/-- What is true of the heap once `malloc` has been called. -/
structure FreeList (base lo : ℕ) (h : Heap) (live : List (ℕ × ℕ)) (l : List ℕ) : Prop where
  /-- A circle in the order of the addresses, with one wrap. -/
  circular : Round h.ptr base l
  ordered : (base :: l).Pairwise (· < ·)
  freep : h.freep ∈ base :: l
  /-- No two free blocks are adjacent. -/
  merged : ∀ x ∈ l, x + 8 * h.size x ∉ l
  /-- The free blocks, with their headers, and `base` are disjoint from the blocks in use. -/
  apart : ∀ x ∈ l, ∀ b ∈ live, x + 8 * h.size x + 8 ≤ b.1 ∨ b.1 + b.2 ≤ x
  /-- The units of the free blocks and of those in use are the units obtained. -/
  units : 8 * ((l.map h.size).sum + (live.map fun b => h.size (b.1 - 8)).sum) = h.brk - lo

/-- The blocks in use and the free list, in the memory from `lo` on. -/
structure Managed (base lo : ℕ) (s : State) : Prop where
  inside : ∀ b ∈ s.live, base + 8 ≤ lo ∧ lo + 8 ≤ b.1 ∧ b.1 + b.2 ≤ s.heap.brk
  /-- Two blocks in use, the second with its header, do not overlap. -/
  disjoint : s.live.Pairwise fun b c => b.1 + b.2 + 8 ≤ c.1 ∨ c.1 + c.2 + 8 ≤ b.1
  list : s.heap.freep = 0 ∧ s.live = [] ∧ s.heap.brk = lo ∨ ∃ l, FreeList base lo s.heap s.live l

/-- The blocks `ts` give the state of the process. -/
structure Good (base lo : ℕ) (s : State) (ts : List Block) : Prop where
  inv : Inv base lo s.heap ts
  live : (s.live.map Prod.fst).Perm ((lives ts).map fun t => t.addr + 8)
  large : ∀ b ∈ s.live, b.2 + 8 ≤ 8 * s.heap.size (b.1 - 8)

section Blocks

variable {base lo : ℕ} {s : State} {h : Heap} {ts : List Block}

theorem mem_lives {t : Block} : t ∈ lives ts ↔ t ∈ ts ∧ t.free = false := by
  rw [lives, List.mem_filter]
  simp

theorem laid_apart {hi : ℕ} (hl : Laid lo ts hi) {t u : Block} (ht : t ∈ ts) (hu : u ∈ ts) :
    t = u ∨ t.addr + 8 * t.units ≤ u.addr ∨ u.addr + 8 * u.units ≤ t.addr := by
  obtain ⟨a, b, rfl⟩ := List.append_of_mem ht
  obtain ⟨mid, h₁, rfl, -, h₂⟩ := laid_append.1 hl
  rcases List.mem_append.1 hu with hu | hu
  · exact .inr (.inr (laid_mem h₁ hu).2.1)
  · rcases List.mem_cons.1 hu with rfl | hu
    · exact .inl rfl
    · exact .inr (.inl (laid_mem h₂ hu).1)

theorem Inv.not_unmerged (hi : Inv base lo h ts) {t u : Block} (ht : t ∈ ts) (hu : u ∈ ts)
    (hadj : t.addr + 8 * t.units = u.addr) : ¬ Unmerged t u := by
  obtain ⟨a, b, rfl⟩ := List.append_of_mem ht
  obtain ⟨hlay₁, hlay₂, hpos, -⟩ := hi.around
  have hchain := (List.isChain_append.1 hi.merged).2.1
  rcases List.mem_append.1 hu with hu | hu
  · have hm := laid_mem hlay₁ hu
    omega
  · rcases List.mem_cons.1 hu with rfl | hu
    · omega
    · rcases b with _ | ⟨v, b⟩
      · cases hu
      · rcases List.mem_cons.1 hu with rfl | hu
        · exact (List.isChain_cons_cons.1 hchain).1
        · obtain ⟨hv, hvpos, hlay⟩ := hlay₂
          have hm := laid_mem hlay hu
          omega

theorem laid_sum {hi : ℕ} (hl : Laid lo ts hi) : lo + 8 * (ts.map Block.units).sum = hi := by
  induction ts generalizing lo with
  | nil => exact hl
  | cons t ts ih =>
    have htl := ih hl.2.2
    rw [List.map_cons, List.sum_cons, ← htl]
    omega

theorem units_split (ts : List Block) : (ts.map Block.units).sum =
    ((ts.filter fun t => t.free).map Block.units).sum + ((lives ts).map Block.units).sum := by
  induction ts with
  | nil => rfl
  | cons t ts ih =>
    rw [List.map_cons, List.sum_cons, ih]
    cases ht : t.free with
    | true =>
      rw [List.filter_cons_of_pos ht, lives_free ht, List.map_cons, List.sum_cons, Nat.add_assoc]
    | false =>
      rw [List.filter_cons_of_neg (by simp [ht]), lives_live ht, List.map_cons, List.sum_cons]
      omega

theorem Good.block (hg : Good base lo s ts) {b : ℕ × ℕ} (hb : b ∈ s.live) : ∃ t ∈ ts, t.free = false ∧
    b.1 = t.addr + 8 ∧ s.heap.size t.addr = t.units ∧ b.2 + 8 ≤ 8 * t.units := by
  have hmem := hg.live.mem_iff.1 (List.mem_map_of_mem hb)
  obtain ⟨t, ht, hbt⟩ := List.mem_map.1 hmem
  obtain ⟨hts, hfree⟩ := mem_lives.1 ht
  have hsize := hg.inv.sizes t hts
  have hlarge := hg.large b hb
  rw [← hbt, Nat.add_sub_cancel, hsize] at hlarge
  exact ⟨t, hts, hfree, hbt.symm, hsize, hlarge⟩

theorem laid_sorted {hi : ℕ} (hl : Laid lo ts hi) : ts.Pairwise fun t u => t.addr < u.addr := by
  induction ts generalizing lo with
  | nil => exact List.Pairwise.nil
  | cons t ts ih =>
    obtain ⟨ht, hpos, htl⟩ := hl
    refine List.pairwise_cons.2 ⟨fun u hu => ?_, ih htl⟩
    have hm := laid_mem htl hu
    omega

theorem Good.nodup (hg : Good base lo s ts) : (s.live.map Prod.fst).Nodup := by
  refine hg.live.nodup_iff.2 (List.pairwise_map.2 ?_)
  refine ((laid_sorted hg.inv.laid).filter _).imp fun {t u} hlt => ?_
  have hne : t.addr + 8 ≠ u.addr + 8 := by omega
  exact hne

theorem Good.managed (hg : Good base lo s ts) : Managed base lo s where
  inside b hb := by
    obtain ⟨t, ht, -, hbt, -, hlarge⟩ := hg.block hb
    have hm := laid_mem hg.inv.laid ht
    have hbase := hg.inv.base_le
    omega
  disjoint := by
    have hnodup := hg.nodup
    rw [List.Nodup, List.pairwise_map] at hnodup
    refine hnodup.imp_of_mem fun {b c} hb hc hne => ?_
    obtain ⟨t, ht, -, hbt, -, hlarge⟩ := hg.block hb
    obtain ⟨u, hu, -, hcu, -, hlarge'⟩ := hg.block hc
    rcases laid_apart hg.inv.laid ht hu with rfl | hlt | hlt
    · exact absurd (hbt.trans hcu.symm) hne
    · left
      omega
    · right
      omega
  list := by
    refine .inr ⟨frees ts, hg.inv.round, hg.inv.sorted, hg.inv.freep, fun x hx hadj => ?_, fun x hx b hb => ?_, ?_⟩
    · obtain ⟨t, ht, hfree, rfl⟩ := mem_frees.1 hx
      obtain ⟨u, hu, hfree', hua⟩ := mem_frees.1 hadj
      rw [hg.inv.sizes t ht] at hua
      exact hg.inv.not_unmerged ht hu hua.symm ⟨hfree, hfree'⟩
    · obtain ⟨t, ht, hfree, rfl⟩ := mem_frees.1 hx
      obtain ⟨u, hu, hfree', hbu, -, hlarge⟩ := hg.block hb
      rw [hg.inv.sizes t ht]
      rcases laid_apart hg.inv.laid ht hu with rfl | hlt | hlt
      · rw [hfree] at hfree'
        cases hfree'
      · left
        omega
      · right
        omega
    · have hfree : (frees ts).map s.heap.size = (ts.filter fun t => t.free).map Block.units := by
        rw [frees, List.map_map]
        exact List.map_congr_left fun t ht => hg.inv.sizes t (List.mem_of_mem_filter ht)
      have hlive : (s.live.map fun b => s.heap.size (b.1 - 8)).sum = ((lives ts).map Block.units).sum := by
        have hmap : (s.live.map fun b => s.heap.size (b.1 - 8)) =
            (s.live.map Prod.fst).map fun a => s.heap.size (a - 8) := by
          rw [List.map_map]
          rfl
        rw [hmap, (hg.live.map fun a => s.heap.size (a - 8)).sum_eq, List.map_map]
        exact congrArg List.sum (List.map_congr_left fun t ht => hg.inv.sizes t (mem_lives.1 ht).1)
      have hsum := laid_sum hg.inv.laid
      rw [hfree, hlive, ← units_split]
      omega

theorem Good.size_eq (hg : Good base lo s ts) {h' : Heap} {ts' : List Block} (hi : Inv base lo h' ts')
    {live : List (ℕ × ℕ)} (hlive : (live.map Prod.fst).Perm ((lives ts').map fun t => t.addr + 8))
    (hsub : ∀ t ∈ lives ts', t ∈ ts) {b : ℕ × ℕ} (hb : b ∈ live) :
    h'.size (b.1 - 8) = s.heap.size (b.1 - 8) := by
  obtain ⟨t, ht, hbt⟩ := List.mem_map.1 (hlive.mem_iff.1 (List.mem_map_of_mem hb))
  rw [← hbt, Nat.add_sub_cancel, hi.sizes t (mem_lives.1 ht).1, hg.inv.sizes t (hsub t ht)]

/-- **`free`** of a block in use. -/
theorem Good.free {rounds : ℕ} (hr : 2 ^ 31 ≤ rounds) (hg : Good base lo s ts) {ap : ℕ}
    (hap : ap ∈ s.live.map Prod.fst) : ∃ s' ts', exec base rounds (.free ap) s = .ok s' ∧ Good base lo s' ts' := by
  obtain ⟨t, ht, rfl⟩ := List.mem_map.1 (hg.live.mem_iff.1 hap)
  obtain ⟨hts, hfree⟩ := mem_lives.1 ht
  obtain ⟨ts₁, ts₂, rfl⟩ := List.append_of_mem hts
  obtain ⟨h', ts', he, hinv, hlive, -, -⟩ := free_spec hr hg.inv hfree
  have hlives : lives ts' = lives (ts₁ ++ ts₂) := hlive
  have hsub : ∀ u ∈ lives ts', u ∈ ts₁ ++ t :: ts₂ := by
    intro u hu
    rw [hlives] at hu
    rcases List.mem_append.1 (mem_lives.1 hu).1 with hu | hu
    · exact List.mem_append_left _ hu
    · exact List.mem_append_right ts₁ (List.mem_cons_of_mem t hu)
  have hne : ∀ u ∈ lives (ts₁ ++ ts₂), u.addr + 8 ≠ t.addr + 8 := by
    intro u hu
    obtain ⟨hlay₁, hlay₂, hpos, -⟩ := hg.inv.around
    rcases List.mem_append.1 (mem_lives.1 hu).1 with hu | hu
    · have hm := laid_mem hlay₁ hu
      omega
    · have hm := laid_mem hlay₂ hu
      omega
  have hperm : ((s.live.filter fun b => decide (b.1 ≠ t.addr + 8)).map Prod.fst).Perm
      ((lives ts').map fun t => t.addr + 8) := by
    have hmap : (s.live.filter fun b => decide (b.1 ≠ t.addr + 8)).map Prod.fst =
        (s.live.map Prod.fst).filter fun a => decide (a ≠ t.addr + 8) := by
      rw [List.filter_map]
      rfl
    have hcut : (((lives (ts₁ ++ t :: ts₂)).map fun t => t.addr + 8).filter fun a => decide (a ≠ t.addr + 8)) =
        (lives (ts₁ ++ ts₂)).map fun t => t.addr + 8 := by
      rw [lives_append, lives_live hfree, List.map_append, List.map_cons, List.filter_append,
        List.filter_cons_of_neg (by simp), ← List.filter_append, ← List.map_append, ← lives_append]
      refine List.filter_eq_self.2 fun a ha => ?_
      obtain ⟨u, hu, rfl⟩ := List.mem_map.1 ha
      exact decide_eq_true (hne u hu)
    rw [hmap, hlives, ← hcut]
    exact hg.live.filter _
  refine ⟨{ heap := h', live := s.live.filter fun b => decide (b.1 ≠ t.addr + 8) }, ts', ?_, hinv, hperm,
    fun b hb => ?_⟩
  · rw [exec, he]
    rfl
  · rw [hg.size_eq hinv hperm hsub hb]
    exact hg.large b (List.mem_of_mem_filter hb)

/-- What `malloc` leaves, from what its loop does. -/
theorem Good.malloced (hg : Good base lo s ts) {nbytes : ℕ} (hn : nbytes ≤ 2 ^ 31 - 16)
    {granted : ℕ → Bool} {brk : ℕ} {r : Except Stop (ℕ × Heap)}
    (hm : Malloced base lo (unitsFor nbytes) granted brk ts r) :
    ∃ x ts', r = .ok x ∧ Good base lo
      { heap := x.2, live := if x.1 = 0 then s.live else (x.1, nbytes) :: s.live } ts' := by
  rcases hm with ⟨h', ts', he, hinv, hlives, -⟩ | ⟨h', ts', t, he, hinv, hfree, hunits, hperm⟩
  · have hlive : (s.live.map Prod.fst).Perm ((lives ts').map fun t => t.addr + 8) := by
      rw [hlives]
      exact hg.live
    refine ⟨(0, h'), ts', he, hinv, hlive, fun b hb => ?_⟩
    have hb' : b ∈ s.live := hb
    change b.2 + 8 ≤ 8 * h'.size (b.1 - 8)
    rw [hg.size_eq hinv hlive (fun t ht => (mem_lives.1 (hlives ▸ ht)).1) hb']
    exact hg.large b hb'
  · have hne : ¬ t.addr + 8 = 0 := by omega
    refine ⟨(t.addr + 8, h'), ts', he, ?_⟩
    dsimp only
    rw [if_neg hne]
    have ht : t ∈ ts' := (mem_lives.1 (hperm.mem_iff.2 List.mem_cons_self)).1
    refine ⟨hinv, ?_, fun b hb => ?_⟩
    · have hmap : ((lives ts').map fun u => u.addr + 8).Perm ((t.addr + 8) :: (lives ts).map fun u => u.addr + 8) :=
        hperm.map fun u => u.addr + 8
      exact (hg.live.cons (t.addr + 8)).trans hmap.symm
    · rcases List.mem_cons.1 hb with rfl | hb
      · change nbytes + 8 ≤ 8 * h'.size (t.addr + 8 - 8)
        rw [Nat.add_sub_cancel, hinv.sizes t ht, hunits]
        exact (unitsFor_spec hn).2.2
      · obtain ⟨u, hu, hufree, hbu, hsize, hlarge⟩ := hg.block hb
        have hu' : u ∈ ts' := (mem_lives.1 (hperm.mem_iff.2 (List.mem_cons_of_mem t (mem_lives.2 ⟨hu, hufree⟩)))).1
        change b.2 + 8 ≤ 8 * h'.size (b.1 - 8)
        rw [hbu, Nat.add_sub_cancel, hinv.sizes u hu']
        exact hlarge

end Blocks

/-! ## Runs -/

/-- A process before its first call of `malloc`. -/
structure Fresh (base lo : ℕ) (s : State) : Prop where
  base_pos : 0 < base
  base_le : base + 8 ≤ lo
  top : lo < 2 ^ 31
  brk : s.heap.brk = lo
  freep : s.heap.freep = 0
  live : s.live = []

section Runs

variable {base lo rounds : ℕ} {s : State} {c : Call} {cs : List Call}

theorem malloc_first (base : ℕ) {h : Heap} (hfreep : h.freep = 0) (hle : base + 8 ≤ h.brk) (rounds : ℕ)
    (granted : ℕ → Bool) (nbytes : ℕ) :
    malloc base rounds granted nbytes h = mallocLoop rounds granted (unitsFor nbytes) rounds base
      { h with
        ptr := Function.update h.ptr base base
        size := Function.update h.size base 0
        freep := base } := by
  have hle' : base + 8 ≤ { h with ptr := Function.update h.ptr base base, freep := base }.brk := hle
  rw [malloc, if_pos hfreep, setPtr_ok hle]
  change (Heap.setSize { h with ptr := _, freep := base } base 0).bind _ = _
  rw [setSize_ok hle']
  rfl

/-- In every state of a run `malloc` has not been called, or the blocks are given. -/
def Reach (base lo : ℕ) (s : State) : Prop := Fresh base lo s ∨ ∃ ts, Good base lo s ts

theorem Reach.managed (h : Reach base lo s) : Managed base lo s := by
  rcases h with hf | ⟨ts, hg⟩
  · refine ⟨fun b hb => ?_, ?_, .inl ⟨hf.freep, hf.live, hf.brk⟩⟩
    · rw [hf.live] at hb
      cases hb
    · rw [hf.live]
      exact List.Pairwise.nil
  · exact hg.managed

/-- **One call** returns and keeps the heap in order. -/
theorem Reach.exec (hr : 2 ^ 32 ≤ rounds) (h : Reach base lo s) (hc : c.Small) (hallowed : c.allowed s = true) :
    ∃ s', exec base rounds c s = .ok s' ∧ Reach base lo s' := by
  cases c with
  | free ap =>
    have hap : ap ∈ s.live.map Prod.fst := of_decide_eq_true hallowed
    rcases h with hf | ⟨ts, hg⟩
    · rw [hf.live] at hap
      cases hap
    · have hr' : 2 ^ 31 ≤ rounds := by omega
      obtain ⟨s', ts', he, hg'⟩ := hg.free hr' hap
      exact ⟨s', he, .inr ⟨ts', hg'⟩⟩
  | malloc nbytes granted =>
    obtain ⟨hpos, hlt, -⟩ := unitsFor_spec hc
    rcases h with hf | ⟨ts, hg⟩
    · obtain ⟨hbase, hle, htop, rfl, hfreep, hlive⟩ := hf
      have hg : Good base s.heap.brk { heap := { s.heap with
          ptr := Function.update s.heap.ptr base base
          size := Function.update s.heap.size base 0
          freep := base } } [] :=
        ⟨Inv.init hbase hle htop, List.Perm.nil, fun b hb => absurd hb List.not_mem_nil⟩
      obtain ⟨x, ts', he, hg'⟩ := hg.malloced hc (mallocLoop_spec hr granted hg.inv hpos hlt)
      have hstart := (malloc_first base hfreep hle rounds granted nbytes).trans he
      refine ⟨_, ?_, .inr ⟨ts', hg'⟩⟩
      rw [Umalloc.exec, hstart, hlive]
      rfl
    · have hfreep : ¬ s.heap.freep = 0 := by
        have hb := hg.inv.base_pos
        rcases List.mem_cons.1 hg.inv.freep with hfr | hfr
        · omega
        · have hlt := (List.pairwise_cons.1 hg.inv.sorted).1 _ hfr
          omega
      obtain ⟨x, ts', he, hg'⟩ := hg.malloced hc (mallocLoop_spec hr granted hg.inv hpos hlt)
      refine ⟨_, ?_, .inr ⟨ts', hg'⟩⟩
      rw [Umalloc.exec, malloc, if_neg hfreep, he]
      rfl

theorem Reach.step (hr : 2 ^ 32 ≤ rounds) (h : Reach base lo s) (hc : c.Small) {s' : State}
    (hs : step base rounds c s = some s') : Reach base lo s' := by
  unfold Umalloc.step at hs
  split_ifs at hs with hallowed
  obtain ⟨s₁, he, h₁⟩ := h.exec hr hc hallowed
  rw [he] at hs
  obtain rfl : s₁ = s' := Option.some.inj hs
  exact h₁

/-- The heap is in order, and any call that is not too large returns. -/
def Sane (base lo rounds : ℕ) (s : State) : Prop :=
  Managed base lo s ∧ ∀ c : Call, c.Small → c.allowed s = true → ∃ s', exec base rounds c s = .ok s'

/-- **Disjoint blocks**, throughout a run whose requests are small, for any number of rounds of the
loops from `2 ^ 32` on. -/
theorem malloc_free (hr : 2 ^ 32 ≤ rounds) (hf : Fresh base lo s) (hcs : ∀ c ∈ cs, c.Small) :
    Throughout (step base rounds) (Sane base lo rounds) cs s := by
  have hreach : Reach base lo s := .inl hf
  clear hf
  have hsane : ∀ {s}, Reach base lo s → Sane base lo rounds s := fun h =>
    ⟨h.managed, fun c hc hallowed => (h.exec hr hc hallowed).imp fun s' hs => hs.1⟩
  induction cs generalizing s with
  | nil => exact hsane hreach
  | cons c cs ih =>
    obtain ⟨hc, hcs⟩ := List.forall_mem_cons.1 hcs
    exact ⟨hsane hreach, fun s' hs => ih hcs (hreach.step hr hc hs)⟩

end Runs

/-- A process of two pages that has not called `malloc`. -/
def freshState : State where
  heap := { ptr := fun _ => 0, size := fun _ => 0, freep := 0, brk := 8192 }

theorem freshState_fresh : Fresh 2048 8192 freshState :=
  ⟨by decide, by decide, by decide, rfl, rfl, rfl⟩

theorem malloc_free_fresh : Throughout (step 2048 (2 ^ 32)) (Sane 2048 8192 (2 ^ 32))
    [.malloc 100 fun _ => true, .malloc 20 fun _ => true, .free 40856] freshState := by
  refine malloc_free le_rfl freshState_fresh fun c hc => ?_
  simp only [List.mem_cons, List.not_mem_nil, or_false] at hc
  rcases hc with rfl | rfl | rfl
  · change 100 ≤ 2 ^ 31 - 16
    decide
  · change 20 ≤ 2 ^ 31 - 16
    decide
  · trivial

/-- `malloc` of 4294967295 bytes returns a block of one unit: only the header. -/
theorem not_malloc_free : ¬ ∀ (base lo rounds : ℕ) (s : State) (cs : List Call), 2 ^ 32 ≤ rounds →
    Fresh base lo s → Throughout (step base rounds) (Managed base lo) cs s := by
  intro hall
  have hrun := hall 2048 8192 (2 ^ 32) freshState [.malloc 4294967295 fun _ => true] le_rfl freshState_fresh
  have hinit := Inv.init (h := freshState.heap) freshState_fresh.base_pos freshState_fresh.base_le
    freshState_fresh.top
  have hunits : unitsFor 4294967295 = 1 := by decide
  have hloop := mallocLoop_spec le_rfl (fun _ => true) hinit Nat.one_pos (by decide : 1 < 2 ^ 28)
  have hfirst := malloc_first 2048 (h := freshState.heap) rfl freshState_fresh.base_le (2 ^ 32)
    (fun _ => true) 4294967295
  rw [hunits] at hfirst
  rcases hloop with ⟨-, -, -, -, -, k, hk⟩ | ⟨h', ts', t, he, hinv, -, -, -⟩
  · have hsome : sbrk true (bytesFor 1) 8192 = some 40960 := by decide
    cases hsome.symm.trans hk
  · have hne : ¬ t.addr + 8 = 0 := by omega
    have hstep : step 2048 (2 ^ 32) (.malloc 4294967295 fun _ => true) freshState =
        some { heap := h', live := [(t.addr + 8, 4294967295)] } := by
      have hallowed : (Call.malloc 4294967295 fun _ => true).allowed freshState = true := by decide
      rw [step, if_pos hallowed, exec, hfirst.trans he]
      change some (⟨h', if t.addr + 8 = 0 then [] else [(t.addr + 8, 4294967295)]⟩ : State) = _
      rw [if_neg hne]
    have hin := ((hrun.2 _ hstep).inside _ List.mem_cons_self).2.2
    have htop := hinv.top
    dsimp only at hin
    omega

end Umalloc

end OsPlayground
