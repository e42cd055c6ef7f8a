import OsPlayground.Lib.Sums
import OsPlayground.Vm.Model

/-!
# What a page directory maps and owns

* `Pgdir.lookup`: the entry of a page; `Pgdir.frames`: the frames a page directory owns, that is
  its own, its page-table pages' and those of the pages below the window.
* `TablesFrom`: frames only moved from the free list to page tables.
* **`mapLoop_spec`**: what `mappages` maps; `mapLoop_error`: it panics only if a page was mapped.
-/

namespace OsPlayground

open Lib Finset

/-! ## Lookups -/

namespace Pgdir

/-- The entry of the page `v`. -/
def lookup (d : Pgdir) (v : ℕ) : Option Pte :=
  (d.pde (v / NPTENTRIES)).bind fun tab => tab.pte (v % NPTENTRIES)

/-- The frames of the page-table pages. -/
def tables (d : Pgdir) : Multiset Frame :=
  ∑ i ∈ range NPDENTRIES, entry (d.pde i) fun tab => {tab.frame}

/-- The frames of the pages below the window. -/
def user (d : Pgdir) : Multiset Frame := ∑ v ∈ range WINPAGE, entry (d.lookup v) fun e => {e.frame}

/-- The frames that a page directory owns. -/
def frames (d : Pgdir) : Multiset Frame := {d.frame} + d.tables + d.user

variable {d d' : Pgdir} {v x i : ℕ} {tab : PgTab} {f : Frame}

theorem lookup_of_pde (h : d.pde (v / NPTENTRIES) = some tab) :
    d.lookup v = tab.pte (v % NPTENTRIES) := by
  simp [lookup, h]

theorem lookup_setPte (h : d.pde (v / NPTENTRIES) = some tab) (e : Option Pte) :
    (d.setPte v tab e).lookup x = if x = v then e else d.lookup x := by
  by_cases hi : x / NPTENTRIES = v / NPTENTRIES
  · have hx : (d.setPte v tab e).lookup x =
        Function.update tab.pte (v % NPTENTRIES) e (x % NPTENTRIES) := by
      simp [lookup, setPte, setPde, hi]
    have hx' : d.lookup x = tab.pte (x % NPTENTRIES) := by simp [lookup, hi, h]
    rw [hx, hx']
    by_cases hxv : x = v
    · subst hxv
      simp
    · have hne : x % NPTENTRIES ≠ v % NPTENTRIES := by
        intro hm
        exact hxv (by rw [← Nat.div_add_mod x NPTENTRIES, ← Nat.div_add_mod v NPTENTRIES, hi, hm])
      rw [Function.update_of_ne hne, if_neg hxv]
  · have hxv : x ≠ v := by
      rintro rfl
      exact hi rfl
    rw [if_neg hxv]
    simp [lookup, setPte, setPde, Function.update_of_ne hi]

theorem lookup_setPde (h : d.pde i = none) (f : Frame) :
    (d.setPde i ⟨f, fun _ => none⟩).lookup x = d.lookup x := by
  by_cases hi : x / NPTENTRIES = i
  · subst hi
    simp [lookup, setPde, h]
  · simp [lookup, setPde, Function.update_of_ne hi]

theorem tables_setPte (h : d.pde (v / NPTENTRIES) = some tab) (e : Option Pte) :
    (d.setPte v tab e).tables = d.tables := by
  refine Finset.sum_congr rfl fun j _ => ?_
  by_cases hj : j = v / NPTENTRIES
  · subst hj
    simp [setPte, setPde, h]
  · simp [setPte, setPde, Function.update_of_ne hj]

theorem tables_setPde (hi : i < NPDENTRIES) (h : d.pde i = none) (f : Frame) :
    (d.setPde i ⟨f, fun _ => none⟩).tables = d.tables + {f} := by
  have := sum_change (mem_range.mpr hi) (f := fun j => entry (d.pde j) fun tab => {tab.frame})
    (g := fun j => entry ((d.setPde i ⟨f, fun _ => none⟩).pde j) fun tab => {tab.frame})
    fun j _ hj => by simp [setPde, Function.update_of_ne hj]
  simpa [tables, h, setPde] using this

theorem user_congr (h : ∀ x < WINPAGE, d'.lookup x = d.lookup x) : d'.user = d.user :=
  Finset.sum_congr rfl fun x hx => by rw [h x (mem_range.mp hx)]

theorem user_change {b : Pgdir} (hv : v < WINPAGE)
    (h : ∀ x < WINPAGE, x ≠ v → b.lookup x = d.lookup x) :
    b.user + entry (d.lookup v) (fun e => {e.frame}) =
      d.user + entry (b.lookup v) fun e => {e.frame} :=
  sum_change (mem_range.mpr hv) (f := fun x => entry (d.lookup x) fun e => {e.frame})
    (g := fun x => entry (b.lookup x) fun e => {e.frame})
    fun x hx hne => by rw [h x (mem_range.mp hx) hne]

-- a sum over all directory entries must not be computed
attribute [irreducible] tables

end Pgdir

/-! ## The allocator -/

namespace Kmem

/-- The free frames. -/
def free (m : Kmem) : Multiset Frame := m.freelist

@[simp] theorem memset_free (f : Frame) (b : ℕ) (m : Kmem) : (m.memset f b).free = m.free := rfl
@[simp] theorem memmove_free (a b : Frame) (m : Kmem) : (m.memmove a b).free = m.free := rfl

end Kmem

section Alloc

variable {m m' : Kmem} {f : Frame}

theorem kalloc_some (h : kalloc m = (m', some f)) : m.free = {f} + m'.free := by
  unfold kalloc at h
  split at h
  · cases h
  · obtain ⟨rfl, hf⟩ := Prod.mk.inj h
    obtain rfl := Option.some.inj hf
    rename_i l hl
    simp [Kmem.free, hl]

theorem kalloc_none (h : kalloc m = (m', none)) : m' = m ∧ m.free = 0 := by
  unfold kalloc at h
  split at h
  · obtain ⟨rfl, -⟩ := Prod.mk.inj h
    rename_i hl
    exact ⟨rfl, by simp [Kmem.free, hl]⟩
  · cases h

theorem kfree_spec (h : kfree f m = .ok m') : m'.free = {f} + m.free ∧ kfreeOk f := by
  unfold kfree at h
  split_ifs at h with hf
  obtain rfl := Except.ok.inj h
  exact ⟨by simp [Kmem.free], hf⟩

end Alloc

/-! ## Mapping pages -/

/-- The number of pages of the address space. -/
abbrev NPAGES : ℕ := NPDENTRIES * NPTENTRIES

theorem pdx_lt {v : ℕ} (hv : v < NPAGES) : v / NPTENTRIES < NPDENTRIES :=
  Nat.div_lt_of_lt_mul (by rwa [Nat.mul_comm])

/-- The page tables of `d'` are those of `d` with frames taken from the free list. -/
structure TablesFrom (m m' : Kmem) (d d' : Pgdir) : Prop where
  conserved : m'.free + d'.tables = m.free + d.tables
  frame : d'.frame = d.frame

namespace TablesFrom

variable {m m' m'' : Kmem} {d d' d'' : Pgdir}

theorem refl (m : Kmem) (d : Pgdir) : TablesFrom m m d d := ⟨rfl, rfl⟩

theorem trans (h : TablesFrom m m' d d') (h' : TablesFrom m' m'' d' d'') :
    TablesFrom m m'' d d'' :=
  ⟨h'.conserved.trans h.conserved, h'.frame.trans h.frame⟩

theorem card_eq (h : TablesFrom m m' d d') :
    m'.free.card + d'.tables.card = m.free.card + d.tables.card := by
  have := congrArg Multiset.card h.conserved
  simpa using this

theorem frames_eq (h : TablesFrom m m' d d') (hu : d'.user = d.user) :
    m'.free + d'.frames = m.free + d.frames := by
  have hc := h.conserved
  calc m'.free + d'.frames = (m'.free + d'.tables) + ({d.frame} + d.user) := by
        rw [Pgdir.frames, h.frame, hu]; abel
    _ = (m.free + d.tables) + ({d.frame} + d.user) := by rw [hc]
    _ = m.free + d.frames := by rw [Pgdir.frames]; abel

end TablesFrom

section Map

variable {m m' : Kmem} {d d' : Pgdir} {v n : ℕ} {w u : Bool} {f : Frame} {s : Panic} {ok : Bool}

/-- `walkpgdir` with allocation finds the page table or takes a frame for it. -/
theorem walkpgdir_spec {o : Option PgTab} (hv : v < NPAGES)
    (h : walkpgdir d v true m = (m', d', o)) : TablesFrom m m' d d' ∧
      (∀ x, d'.lookup x = d.lookup x) ∧ (∀ tab, o = some tab → d'.pde (v / NPTENTRIES) = some tab) ∧
      (o = none → d.pde (v / NPTENTRIES) = none ∧ m.free = 0) := by
  unfold walkpgdir at h
  rcases hp : d.pde (v / NPTENTRIES) with _ | tab
  · rw [hp] at h
    rcases hk : kalloc m with ⟨m₁, _ | f⟩
    · obtain ⟨rfl, hm⟩ := kalloc_none hk
      rw [hk] at h
      obtain ⟨rfl, rfl, rfl⟩ : m₁ = m' ∧ d = d' ∧ none = o := by simpa using h
      exact ⟨.refl _ _, fun _ => rfl, (by simp), fun _ => ⟨rfl, hm⟩⟩
    · have hm := kalloc_some hk
      rw [hk] at h
      have hi := pdx_lt hv
      obtain ⟨rfl, rfl, rfl⟩ : m₁.memset f 0 = m' ∧
          d.setPde (v / NPTENTRIES) ⟨f, fun _ => none⟩ = d' ∧ some ⟨f, fun _ => none⟩ = o := by
        simpa using h
      refine ⟨⟨?_, rfl⟩, fun x => Pgdir.lookup_setPde hp f, fun tab ht => ?_, (by simp)⟩
      · rw [Pgdir.tables_setPde hi hp f, Kmem.memset_free, hm]
        abel
      · obtain rfl := Option.some.inj ht
        simp [Pgdir.setPde]
  · rw [hp] at h
    obtain ⟨rfl, rfl, rfl⟩ : m = m' ∧ d = d' ∧ some tab = o := by simpa using h
    exact ⟨.refl _ _, fun _ => rfl, fun tab' ht => hp.trans ht, (by simp)⟩

/-- **The loop of `mappages`** maps the first `k` of the `n` pages, all of them if it succeeds. -/
theorem mapLoop_spec (hv : v + n ≤ NPAGES) (h : mapLoop w u n v f d m = .ok (m', d', ok)) :
    ∃ k ≤ n, (ok = true ↔ k = n) ∧ TablesFrom m m' d d' ∧
      (∀ x, v ≤ x → x < v + k → d.lookup x = none) ∧
      ∀ x, d'.lookup x = if v ≤ x ∧ x < v + k then some ⟨f + (x - v), w, u⟩ else d.lookup x := by
  induction n generalizing v f d m with
  | zero =>
    obtain ⟨rfl, rfl, rfl⟩ : m = m' ∧ d = d' ∧ true = ok := by simpa [mapLoop] using h
    refine ⟨0, le_rfl, by simp, .refl _ _, fun x h₁ h₂ => by omega, fun x => ?_⟩
    rw [if_neg (by omega)]
  | succ n ih =>
    unfold mapLoop at h
    rcases hw : walkpgdir d v true m with ⟨m₁, d₁, _ | tab⟩
    · rw [hw] at h
      obtain ⟨ht, hl, -, -⟩ := walkpgdir_spec (by omega) hw
      obtain ⟨rfl, rfl, rfl⟩ : m₁ = m' ∧ d₁ = d' ∧ false = ok := by simpa using h
      refine ⟨0, by omega, by simp, ht, fun x h₁ h₂ => by omega, fun x => ?_⟩
      rw [if_neg (by omega), hl]
    · rw [hw] at h
      obtain ⟨ht, hl, hp, -⟩ := walkpgdir_spec (by omega) hw
      have hp := hp tab rfl
      dsimp only at h
      split_ifs at h with hpte
      have hnone : d₁.lookup v = none := by
        rw [Pgdir.lookup_of_pde hp]
        simpa using hpte
      obtain ⟨k, hk, hok, ht', hfresh, hl'⟩ := ih (by omega) h
      have hset := fun x => Pgdir.lookup_setPte (x := x) hp (some ⟨f, w, u⟩)
      refine ⟨k + 1, by omega, by rw [hok]; omega, ?_, fun x h₁ h₂ => ?_, fun x => ?_⟩
      · have hs : TablesFrom m₁ m₁ d₁ (d₁.setPte v tab (some ⟨f, w, u⟩)) :=
          ⟨by rw [Pgdir.tables_setPte hp], rfl⟩
        exact ht.trans (hs.trans ht')
      · by_cases hxv : x = v
        · rw [hxv, ← hl, hnone]
        · have := hfresh x (by omega) (by omega)
          rw [hset, if_neg hxv, hl] at this
          exact this
      · rw [hl' x]
        by_cases hxv : x = v
        · subst hxv
          rw [if_neg (by omega), if_pos (by omega), hset, if_pos rfl, Nat.sub_self, Nat.add_zero]
        · by_cases hx : v ≤ x ∧ x < v + (k + 1)
          · have hsub : 1 + (x - (v + 1)) = x - v := by omega
            rw [if_pos (by omega), if_pos hx, Nat.add_assoc, hsub]
          · rw [if_neg (by omega), if_neg hx, hset, if_neg hxv, hl]

/-- The loop of `mappages` panics only with "remap", and only if a page was mapped. -/
theorem mapLoop_error (hv : v + n ≤ NPAGES) (h : mapLoop w u n v f d m = .error s) :
    s = "remap" ∧ ∃ x, v ≤ x ∧ x < v + n ∧ (d.lookup x).isSome := by
  induction n generalizing v f d m with
  | zero => simp [mapLoop] at h
  | succ n ih =>
    unfold mapLoop at h
    rcases hw : walkpgdir d v true m with ⟨m₁, d₁, _ | tab⟩
    · rw [hw] at h
      simp at h
    · rw [hw] at h
      obtain ⟨-, hl, hp, -⟩ := walkpgdir_spec (by omega) hw
      have hp := hp tab rfl
      dsimp only at h
      split_ifs at h with hpte
      · refine ⟨(Except.error.inj h).symm, v, le_rfl, by omega, ?_⟩
        rw [← hl, Pgdir.lookup_of_pde hp]
        exact hpte
      · obtain ⟨hs, x, h₁, h₂, hx⟩ := ih (by omega) h
        refine ⟨hs, x, by omega, by omega, ?_⟩
        rw [Pgdir.lookup_setPte hp, if_neg (by omega), hl] at hx
        exact hx

end Map

end OsPlayground
