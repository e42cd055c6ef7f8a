import Mathlib.Algebra.BigOperators.Group.Finset.Piecewise
import Mathlib.Order.Interval.Finset.Nat
import OsPlayground.Vm.Contents

/-!
# The kernel's part of a page directory

* `Pgdir.slots`: the directory entries that are present; `mapLoop_slots`: which ones `mappages` adds.
* `kernelSlots`: those of the kernel's mappings.
* **`setupkvm_spec`**: `setupkvm` succeeds if and only if there are frames for the directory and its 64
  page tables.
-/

namespace OsPlayground

open Lib Finset

/-! ## Directory entries -/

/-- The present directory entries. -/
def Pgdir.slots (d : Pgdir) : Finset ℕ := {i ∈ range NPDENTRIES | (d.pde i).isSome}

theorem Pgdir.card_tables_eq (d : Pgdir) : d.tables.card = d.slots.card := by
  unfold Pgdir.tables Pgdir.slots
  rw [Multiset.card_sum, Finset.card_filter]
  refine Finset.sum_congr rfl fun i _ => ?_
  cases d.pde i <;> simp

section Slots

variable {m m' : Kmem} {d d' : Pgdir} {v n i : ℕ} {w u ok : Bool} {f : Frame}

theorem walkpgdir_pde {o : Option PgTab} (h : walkpgdir d v true m = (m', d', o)) :
    (d'.pde i).isSome ↔ (d.pde i).isSome ∨ o.isSome ∧ i = v / NPTENTRIES := by
  unfold walkpgdir at h
  rcases hp : d.pde (v / NPTENTRIES) with _ | tab
  · rw [hp] at h
    rcases hk : kalloc m with ⟨m₁, _ | f⟩
    · rw [hk] at h
      obtain ⟨rfl, rfl, rfl⟩ : m₁ = m' ∧ d = d' ∧ none = o := by simpa using h
      simp
    · rw [hk] at h
      obtain ⟨rfl, rfl, rfl⟩ : m₁.memset f 0 = m' ∧
          d.setPde (v / NPTENTRIES) ⟨f, fun _ => none⟩ = d' ∧ some ⟨f, fun _ => none⟩ = o := by
        simpa using h
      by_cases hi : i = v / NPTENTRIES
      · subst hi
        simp [Pgdir.setPde]
      · simp [Pgdir.setPde, hi]
  · rw [hp] at h
    obtain ⟨rfl, rfl, rfl⟩ : m = m' ∧ d = d' ∧ some tab = o := by simpa using h
    constructor
    · exact Or.inl
    · rintro (h | ⟨-, rfl⟩)
      · exact h
      · rw [hp]
        rfl

theorem setPte_pde {tab : PgTab} (hp : d.pde (v / NPTENTRIES) = some tab) (e : Option Pte) :
    ((d.setPte v tab e).pde i).isSome ↔ (d.pde i).isSome := by
  by_cases hi : i = v / NPTENTRIES
  · subst hi
    simp [Pgdir.setPte, Pgdir.setPde, hp]
  · simp [Pgdir.setPte, Pgdir.setPde, Function.update_of_ne hi]

/-- **The page tables after `mappages`**: those of the mapped pages, or no frame was left for the next
one. -/
theorem mapLoop_slots (hv : v + n ≤ NPAGES) (h : mapLoop w u n v f d m = .ok (m', d', ok)) :
    (∀ i, (d'.pde i).isSome → (d.pde i).isSome ∨ ∃ x, v ≤ x ∧ x < v + n ∧ i = x / NPTENTRIES) ∧
      (∀ i, (d.pde i).isSome → (d'.pde i).isSome) ∧
      (ok = true → ∀ x, v ≤ x → x < v + n → (d'.pde (x / NPTENTRIES)).isSome) ∧
      (ok = false → m'.free = 0 ∧ ∃ x, v ≤ x ∧ x < v + n ∧ d'.pde (x / NPTENTRIES) = none) := by
  induction n generalizing v f d m with
  | zero =>
    obtain ⟨rfl, rfl, rfl⟩ : m = m' ∧ d = d' ∧ true = ok := by simpa [mapLoop] using h
    exact ⟨fun i => Or.inl, fun i => id, fun _ x h₁ h₂ => by omega,
      fun hok => absurd hok.symm Bool.false_ne_true⟩
  | succ n ih =>
    unfold mapLoop at h
    rcases hw : walkpgdir d v true m with ⟨m₁, d₁, _ | tab⟩
    · rw [hw] at h
      have hpde := fun i => walkpgdir_pde (i := i) hw
      obtain ⟨ht, -, -, hnone⟩ := walkpgdir_spec (by omega) hw
      obtain ⟨rfl, rfl, rfl⟩ : m₁ = m' ∧ d₁ = d' ∧ false = ok := by simpa using h
      obtain ⟨hp, hm⟩ := hnone rfl
      have hsame : ∀ i, (d₁.pde i).isSome ↔ (d.pde i).isSome := fun i => by
        rw [hpde]
        simp
      refine ⟨fun i hi => Or.inl ((hsame i).1 hi), fun i hi => (hsame i).2 hi,
        fun hok => absurd hok Bool.false_ne_true, fun _ => ⟨?_, v, le_rfl, by omega, ?_⟩⟩
      · have hcard := ht.card_eq
        rw [hm, Multiset.card_zero] at hcard
        rw [Pgdir.card_tables_eq, Pgdir.card_tables_eq,
          show d₁.slots = d.slots from Finset.filter_congr fun i _ => hsame i] at hcard
        exact Multiset.card_eq_zero.1 (by omega)
      · have := hsame (v / NPTENTRIES)
        rw [hp] at this
        simpa using this
    · rw [hw] at h
      have hpde := fun i => walkpgdir_pde (i := i) hw
      obtain ⟨-, -, hp, -⟩ := walkpgdir_spec (by omega) hw
      have hp := hp tab rfl
      dsimp only at h
      split_ifs at h
      obtain ⟨hfrom, hkeep, hall, hfail⟩ := ih (by omega) h
      have hset := fun i => setPte_pde (i := i) hp (some ⟨f, w, u⟩)
      refine ⟨fun i hi => ?_, fun i hi => ?_, fun hok x h₁ h₂ => ?_, fun hok => ?_⟩
      · rcases hfrom i hi with hi | ⟨x, h₁, h₂, rfl⟩
        · rw [hset, hpde] at hi
          rcases hi with hi | ⟨-, rfl⟩
          · exact Or.inl hi
          · exact Or.inr ⟨v, le_rfl, by omega, rfl⟩
        · exact Or.inr ⟨x, by omega, by omega, rfl⟩
      · apply hkeep
        rw [hset, hpde]
        exact Or.inl hi
      · by_cases hxv : x = v
        · subst hxv
          apply hkeep
          rw [hset, hp]
          rfl
        · exact hall hok x (by omega) (by omega)
      · obtain ⟨hm, x, h₁, h₂, hx⟩ := hfail hok
        exact ⟨hm, x, by omega, by omega, hx⟩

end Slots

/-! ## The kernel's mappings -/

theorem winpage_le : WINPAGE ≤ KERNBASE / PGSIZE := by
  unfold WINPAGE
  decide

namespace Kmap

/-- The first page of an entry of `kmap`. -/
@[irreducible] def first (k : Kmap) : ℕ := k.virt / PGSIZE

/-- The number of pages that `mappages` maps. -/
@[irreducible] def count (k : Kmap) : ℕ := (k.virt + k.size - 1) / PGSIZE - k.first + 1

/-- The mappings follow each other from the page `b` on. -/
def Fit : ℕ → List Kmap → Prop
  | _, [] => True
  | b, k :: ks => b ≤ k.first ∧ k.first + k.count ≤ NPAGES ∧ Fit (k.first + k.count) ks

end Kmap

theorem kmap_fit : Kmap.Fit (KERNBASE / PGSIZE) kmap := by
  simp only [Kmap.Fit, kmap, Kmap.first, Kmap.count, Kmap.size]
  decide

section Kvm

variable {m m' : Kmem} {d d' : Pgdir} {b : ℕ} {k : Kmap} {ks : List Kmap} {s : Panic} {ok : Bool}

theorem setupLoop_cons (k : Kmap) (ks : List Kmap) (d : Pgdir) (m : Kmem) :
    setupLoop (k :: ks) d m =
      match mapLoop k.w false k.count k.first (k.physStart / PGSIZE) d m with
      | .error s => .error s
      | .ok (m, d, false) => .ok (m, d, false)
      | .ok (m, d, true) => setupLoop ks d m := by
  unfold Kmap.count Kmap.first
  exact setupLoop.eq_2 d m k ks

/-- The pages of the mappings. -/
def Kmap.Pages (ks : List Kmap) (x : ℕ) : Prop := ∃ k ∈ ks, k.first ≤ x ∧ x < k.first + k.count

/-- Pages with the property `P` were mapped, or some of them, without `PTE_U`. -/
structure AddsKernel (P : ℕ → Prop) (m m' : Kmem) (d d' : Pgdir) : Prop where
  tables : TablesFrom m m' d d'
  slots : ∀ i, (d'.pde i).isSome → (d.pde i).isSome ∨ ∃ x, P x ∧ i = x / NPTENTRIES
  keep : ∀ i, (d.pde i).isSome → (d'.pde i).isSome
  lookup : ∀ x, ¬ P x → d'.lookup x = d.lookup x
  kernel : ∀ x e, P x → d'.lookup x = some e → d.lookup x = some e ∨ e.u = false

/-- All page tables for `P` are there, or no frame was left for the next one. -/
def Filled (P : ℕ → Prop) (m' : Kmem) (d' : Pgdir) (ok : Bool) : Prop :=
  (ok = true → ∀ x, P x → (d'.pde (x / NPTENTRIES)).isSome) ∧
    (ok = false → m'.free = 0 ∧ ∃ x, P x ∧ d'.pde (x / NPTENTRIES) = none)

theorem mapLoop_kernel {v n : ℕ} {f : Frame} (hv : v + n ≤ NPAGES)
    (h : mapLoop k.w false n v f d m = .ok (m', d', ok)) :
    AddsKernel (fun x => v ≤ x ∧ x < v + n) m m' d d' ∧
      Filled (fun x => v ≤ x ∧ x < v + n) m' d' ok := by
  obtain ⟨c, hc, -, ht, -, hl⟩ := mapLoop_spec hv h
  obtain ⟨hslots, hkeep, hfull, hshort⟩ := mapLoop_slots hv h
  refine ⟨⟨ht, ?_, hkeep, ?_, ?_⟩, ?_, ?_⟩
  · intro i hi
    exact (hslots i hi).imp_right fun ⟨x, h₁, h₂, hx⟩ => ⟨x, ⟨h₁, h₂⟩, hx⟩
  · intro x hx
    rw [hl, if_neg fun h => hx ⟨h.1, by omega⟩]
  · intro x e _ he
    rw [hl] at he
    split_ifs at he
    · exact Or.inr (by rw [← Option.some.inj he])
    · exact Or.inl he
  · exact fun h x hx => hfull h x hx.1 hx.2
  · intro h
    obtain ⟨hm, x, h₁, h₂, hx⟩ := hshort h
    exact ⟨hm, x, ⟨h₁, h₂⟩, hx⟩


namespace AddsKernel

variable {P Q : ℕ → Prop} {m'' : Kmem} {d'' : Pgdir}

theorem refl (P : ℕ → Prop) (m : Kmem) (d : Pgdir) : AddsKernel P m m d d :=
  ⟨.refl _ _, fun _ => Or.inl, fun _ => id, fun _ _ => rfl, fun _ _ _ => Or.inl⟩

theorem mono (h : AddsKernel P m m' d d') (hPQ : ∀ x, P x → Q x) : AddsKernel Q m m' d d' where
  tables := h.tables
  slots i hi := (h.slots i hi).imp_right fun ⟨x, hx, hi⟩ => ⟨x, hPQ x hx, hi⟩
  keep := h.keep
  lookup x hx := h.lookup x fun hp => hx (hPQ x hp)
  kernel x e _ he := by
    by_cases hp : P x
    · exact h.kernel x e hp he
    · exact Or.inl ((h.lookup x hp).symm.trans he)

theorem trans (h : AddsKernel P m m' d d') (h' : AddsKernel P m' m'' d' d'') :
    AddsKernel P m m'' d d'' where
  tables := h.tables.trans h'.tables
  slots i hi := (h'.slots i hi).elim (h.slots i) Or.inr
  keep i hi := h'.keep i (h.keep i hi)
  lookup x hx := (h'.lookup x hx).trans (h.lookup x hx)
  kernel x e hx he := (h'.kernel x e hx he).elim (h.kernel x e hx) Or.inr

end AddsKernel

theorem Kmap.pages_cons {x : ℕ} :
    Pages (k :: ks) x ↔ (k.first ≤ x ∧ x < k.first + k.count) ∨ Pages ks x := by
  simp [Pages]

/-- The loop of `setupkvm`. -/
theorem setupLoop_spec (hfit : Kmap.Fit b ks) (h : setupLoop ks d m = .ok (m', d', ok)) :
    AddsKernel (Kmap.Pages ks) m m' d d' ∧ Filled (Kmap.Pages ks) m' d' ok := by
  induction ks generalizing b d m with
  | nil =>
    obtain ⟨rfl, rfl, rfl⟩ : m = m' ∧ d = d' ∧ true = ok := by simpa [setupLoop] using h
    have hnone : ∀ x, ¬ Kmap.Pages [] x := fun x ⟨k, hk, _⟩ => List.not_mem_nil hk
    exact ⟨.refl _ _ _, fun _ x hx => absurd hx (hnone x), fun h => absurd h.symm Bool.false_ne_true⟩
  | cons k ks ih =>
    obtain ⟨hb, hlast, hfit⟩ := hfit
    rw [setupLoop_cons] at h
    have hhead : ∀ x, k.first ≤ x ∧ x < k.first + k.count → Kmap.Pages (k :: ks) x :=
      fun x hx => Kmap.pages_cons.2 (Or.inl hx)
    have htail : ∀ x, Kmap.Pages ks x → Kmap.Pages (k :: ks) x :=
      fun x hx => Kmap.pages_cons.2 (Or.inr hx)
    rcases hmap : mapLoop k.w false k.count k.first (k.physStart / PGSIZE) d m with
      s | ⟨m₁, d₁, _ | _⟩
    · rw [hmap] at h
      cases h
    · rw [hmap] at h
      obtain ⟨rfl, rfl, rfl⟩ : m₁ = m' ∧ d₁ = d' ∧ false = ok := by simpa using h
      obtain ⟨hadd, -, hshort⟩ := mapLoop_kernel hlast hmap
      obtain ⟨hm, x, hx, hnone⟩ := hshort rfl
      exact ⟨hadd.mono hhead, fun h => absurd h Bool.false_ne_true, fun _ => ⟨hm, x, hhead x hx, hnone⟩⟩
    · rw [hmap] at h
      obtain ⟨hadd, hfull, -⟩ := mapLoop_kernel hlast hmap
      obtain ⟨hadd', hfull', hshort'⟩ := ih hfit h
      refine ⟨(hadd.mono hhead).trans (hadd'.mono htail), fun hok x hx => ?_, fun hok => ?_⟩
      · rcases Kmap.pages_cons.1 hx with hx | hx
        · exact hadd'.keep _ (hfull rfl x hx)
        · exact hfull' hok x hx
      · obtain ⟨hm, x, hx, hnone⟩ := hshort' hok
        exact ⟨hm, x, htail x hx, hnone⟩

theorem setupLoop_total (hfit : Kmap.Fit b ks) (hd : ∀ x, b ≤ x → d.lookup x = none) :
    ∃ m' d' ok, setupLoop ks d m = .ok (m', d', ok) := by
  induction ks generalizing b d m with
  | nil => exact ⟨m, d, true, rfl⟩
  | cons k ks ih =>
    obtain ⟨hb, hlast, hfit⟩ := hfit
    rw [setupLoop_cons]
    rcases hmap : mapLoop k.w false k.count k.first (k.physStart / PGSIZE) d m with
      s | ⟨m₁, d₁, _ | _⟩
    · obtain ⟨-, x, hx, -, hsome⟩ := mapLoop_error hlast hmap
      rw [hd x (hb.trans hx)] at hsome
      cases hsome
    · exact ⟨m₁, d₁, false, rfl⟩
    · refine ih hfit fun x hx => ?_
      rw [(mapLoop_kernel hlast hmap).1.lookup x fun h => by omega]
      exact hd x (by omega)

/-! ## The numbers -/

/-- The directory entries of the kernel's mappings. -/
def kernelSlots : Finset ℕ := Finset.Ico 512 568 ∪ Finset.Ico 1016 1024

theorem card_kernelSlots : kernelSlots.card = 64 := by
  have hdisj : Disjoint (Finset.Ico 512 568) (Finset.Ico 1016 1024) := by
    rw [Finset.disjoint_left]
    intro x h₁ h₂
    rw [Finset.mem_Ico] at h₁ h₂
    omega
  rw [kernelSlots, Finset.card_union_of_disjoint hdisj, Nat.card_Ico, Nat.card_Ico]

theorem pages_kmap {x : ℕ} : Kmap.Pages kmap x ↔
    524288 ≤ x ∧ x < 581632 ∨ 1040384 ≤ x ∧ x < 1048576 := by
  simp only [Kmap.Pages, kmap, List.mem_cons, List.not_mem_nil, or_false, exists_eq_or_imp,
    exists_eq_left]
  have h₁ : Kmap.first ⟨KERNBASE, 0, EXTMEM, true⟩ = 524288 := by
    unfold Kmap.first; decide
  have c₁ : Kmap.count ⟨KERNBASE, 0, EXTMEM, true⟩ = 256 := by
    unfold Kmap.count Kmap.first Kmap.size; decide
  have h₂ : Kmap.first ⟨KERNLINK, KERNLINK - KERNBASE, kernelData - KERNBASE, false⟩ = 524544 := by
    unfold Kmap.first; decide
  have c₂ : Kmap.count ⟨KERNLINK, KERNLINK - KERNBASE, kernelData - KERNBASE, false⟩ = 9 := by
    unfold Kmap.count Kmap.first Kmap.size; decide
  have h₃ : Kmap.first ⟨kernelData, kernelData - KERNBASE, PHYSTOP, true⟩ = 524553 := by
    unfold Kmap.first; decide
  have c₃ : Kmap.count ⟨kernelData, kernelData - KERNBASE, PHYSTOP, true⟩ = 57079 := by
    unfold Kmap.count Kmap.first Kmap.size; decide
  have h₄ : Kmap.first ⟨DEVSPACE, DEVSPACE, 0, true⟩ = 1040384 := by
    unfold Kmap.first; decide
  have c₄ : Kmap.count ⟨DEVSPACE, DEVSPACE, 0, true⟩ = 8192 := by
    unfold Kmap.count Kmap.first Kmap.size; decide
  rw [h₁, c₁, h₂, c₂, h₃, c₃, h₄, c₄]
  omega

theorem mem_kernelSlots {i : ℕ} :
    i ∈ kernelSlots ↔ ∃ x, Kmap.Pages kmap x ∧ i = x / NPTENTRIES := by
  have hN : NPTENTRIES = 1024 := rfl
  simp only [kernelSlots, Finset.mem_union, Finset.mem_Ico, pages_kmap, hN]
  constructor
  · rintro (⟨h₁, h₂⟩ | ⟨h₁, h₂⟩)
    · exact ⟨i * 1024, Or.inl ⟨by omega, by omega⟩, by omega⟩
    · exact ⟨i * 1024, Or.inr ⟨by omega, by omega⟩, by omega⟩
  · rintro ⟨x, h, rfl⟩
    omega

/-! ## `setupkvm` -/

theorem frames_new (f : Frame) : (⟨f, fun _ => none⟩ : Pgdir).frames = {f} := by
  have htables : (⟨f, fun _ => none⟩ : Pgdir).tables = 0 := by
    unfold Pgdir.tables
    exact Finset.sum_eq_zero fun _ _ => rfl
  have huser : (⟨f, fun _ => none⟩ : Pgdir).user = 0 := Finset.sum_eq_zero fun _ _ => rfl
  rw [Pgdir.frames, htables, huser, add_zero, add_zero]

/-- What `setupkvm` makes from the free frames of `m`. -/
structure NewKernel (m m' : Kmem) (d : Pgdir) : Prop where
  free : m'.free + d.frames = m.free
  card : m.free.card = m'.free.card + 65
  slots : d.slots = kernelSlots
  lookup : ∀ x < KERNBASE / PGSIZE, d.lookup x = none
  kernel : ∀ x e, d.lookup x = some e → e.u = false
  taken : Taken m m'

theorem NewKernel.pde_none (h : NewKernel m m' d) {i : ℕ} (hi : i < 512) : d.pde i = none := by
  by_contra hne
  have hlt : i < NPDENTRIES := lt_trans hi (by decide)
  have hmem : i ∈ d.slots := mem_filter.2 ⟨mem_range.2 hlt, Option.ne_none_iff_isSome.1 hne⟩
  rw [h.slots, kernelSlots, Finset.mem_union, Finset.mem_Ico, Finset.mem_Ico] at hmem
  omega

theorem slots_of_added {f : Frame} (h : AddsKernel (Kmap.Pages kmap) m m' ⟨f, fun _ => none⟩ d) :
    d.slots ⊆ kernelSlots := by
  intro i hi
  rw [Pgdir.slots, Finset.mem_filter] at hi
  rcases h.slots i hi.2 with hi | hi
  · cases hi
  · exact mem_kernelSlots.2 hi

theorem setupLoop_taken (hfit : Kmap.Fit b ks) (h : setupLoop ks d m = .ok (m', d', ok)) :
    Taken m m' := by
  induction ks generalizing b d m with
  | nil =>
    obtain ⟨rfl, -⟩ : m = m' ∧ _ := by simpa [setupLoop] using h
    exact .refl m
  | cons k ks ih =>
    rw [setupLoop_cons] at h
    rcases hmap : mapLoop k.w false k.count k.first (k.physStart / PGSIZE) d m with
      s | ⟨m₁, d₁, _ | _⟩
    · rw [hmap] at h
      cases h
    · rw [hmap] at h
      obtain ⟨rfl, -⟩ : m₁ = m' ∧ _ := by simpa using h
      exact mapLoop_taken hmap
    · rw [hmap] at h
      exact (mapLoop_taken hmap).trans (ih hfit.2.2 h)

/-- **`setupkvm`** makes a directory from 65 frames, or finds fewer and leaves the free list as it
was. -/
theorem setupkvm_spec (hok : ∀ f ∈ m.free, kfreeOk f) :
    (∃ m' d, setupkvm m = .ok (m', some d) ∧ NewKernel m m' d) ∨
      ∃ m', setupkvm m = .ok (m', none) ∧ m'.free = m.free ∧ m.free.card < 65 ∧
        ∀ f ∉ m.free, m'.mem f = m.mem f := by
  unfold setupkvm
  rcases hk : kalloc m with ⟨m₁, _ | f⟩
  · obtain ⟨rfl, hm⟩ := kalloc_none hk
    refine Or.inr ⟨m₁, rfl, rfl, ?_, fun _ _ => rfl⟩
    rw [hm, Multiset.card_zero]
    omega
  · have hfree := kalloc_some hk
    have hhigh : ¬ DEVSPACE < KERNBASE + PHYSTOP := by decide
    have htaken : Taken m (m₁.memset f 0) := (kalloc_taken hk).write (mem_of_kalloc hk)
    have hcard : m.free.card = m₁.free.card + 1 := by
      rw [hfree, Multiset.card_add, Multiset.card_singleton, Nat.add_comm]
    dsimp only
    rw [if_neg hhigh]
    obtain ⟨m₂, d, ok, hloop⟩ := setupLoop_total (m := m₁.memset f 0) (d := ⟨f, fun _ => none⟩)
      kmap_fit fun _ _ => rfl
    obtain ⟨hadd, hfull, hshort⟩ := setupLoop_spec kmap_fit hloop
    have htaken' := htaken.trans (setupLoop_taken kmap_fit hloop)
    have hsub := slots_of_added hadd
    have hbelow : ∀ x < KERNBASE / PGSIZE, d.lookup x = none := by
      intro x hx
      rw [hadd.lookup x fun hp => ?_]
      · rfl
      · rw [pages_kmap] at hp
        have : KERNBASE / PGSIZE = 524288 := by decide
        omega
    have hu : d.user = (⟨f, fun _ => none⟩ : Pgdir).user :=
      Pgdir.user_congr fun x hx => hbelow x (hx.trans_le winpage_le)
    have hframes : m₂.free + d.frames = m.free := by
      rw [hadd.tables.frames_eq hu, frames_new, Kmem.memset_free, hfree, add_comm]
    have htab : m₂.free.card + d.slots.card = m₁.free.card := by
      have h := hadd.tables.card_eq
      have hzero : (⟨f, fun _ => none⟩ : Pgdir).slots.card = 0 := by
        rw [Finset.card_eq_zero, Pgdir.slots, Finset.filter_eq_empty_iff]
        exact fun _ _ h => by cases h
      rw [Pgdir.card_tables_eq, Pgdir.card_tables_eq, hzero] at h
      exact h
    rw [hloop]
    cases ok with
    | true =>
      left
      have hall : d.slots = kernelSlots := by
        refine hsub.antisymm fun i hi => ?_
        obtain ⟨x, hx, rfl⟩ := mem_kernelSlots.1 hi
        rw [Pgdir.slots, Finset.mem_filter]
        refine ⟨mem_range.2 (pdx_lt ?_), hfull rfl x hx⟩
        rw [pages_kmap] at hx
        have : NPAGES = 1048576 := rfl
        omega
      refine ⟨m₂, d, rfl, hframes, ?_, hall, hbelow, fun x e he => ?_, htaken'⟩
      · rw [hall, card_kernelSlots] at htab
        omega
      · by_cases hp : Kmap.Pages kmap x
        · exact (hadd.kernel x e hp he).resolve_left fun h => by cases h
        · rw [hadd.lookup x hp] at he
          cases he
    | false =>
      right
      obtain ⟨m₃, hfv⟩ := freevm_total (d := d)
        (fun g hg => hok g (hframes ▸ Multiset.mem_add.2 (Or.inr hg))) m₂
      have hfree₃ : m₃.free = m.free := by rw [freevm_spec hfv, hframes]
      obtain ⟨hm₂, x, hx, hnone⟩ := hshort rfl
      have hlt : d.slots.card < 64 := by
        rw [← card_kernelSlots]
        refine Finset.card_lt_card (Finset.ssubset_iff_subset_ne.2 ⟨hsub, fun heq => ?_⟩)
        have hmem : x / NPTENTRIES ∈ d.slots := heq ▸ mem_kernelSlots.2 ⟨x, hx, rfl⟩
        rw [Pgdir.slots, Finset.mem_filter, hnone] at hmem
        cases hmem.2
      refine ⟨m₃, by dsimp only; rw [hfv], hfree₃, ?_, fun g hg => ?_⟩
      · rw [hm₂, Multiset.card_zero] at htab
        omega
      · rw [(freevm_freed hfv).mem g (by rwa [hfree₃]), htaken'.mem g hg]

end Kvm

end OsPlayground
