import OsPlayground.Vm.Frames

/-!
# What the functions of `vm.c` free and map

One lemma for each function says where the frames went and what is mapped afterwards. Frames only
move between the free list and the directory.

* `deallocuvm_spec`, **`freevm_spec`**: the user pages, or all pages, are on the free list.
* `mapPage_spec`, `mapPage_owned`: `mappages` on one page.
-/

namespace OsPlayground

open Lib Finset

/-! ## Freeing -/

/-- The page tables stay, and frames of user pages went to the free list. -/
structure UserFreed (m m' : Kmem) (d d' : Pgdir) : Prop where
  conserved : m'.free + d'.user = m.free + d.user
  tables : d'.tables = d.tables
  frame : d'.frame = d.frame

namespace UserFreed

variable {m m' m'' : Kmem} {d d' d'' : Pgdir}

theorem refl (m : Kmem) (d : Pgdir) : UserFreed m m d d := ⟨rfl, rfl, rfl⟩

theorem trans (h : UserFreed m m' d d') (h' : UserFreed m' m'' d' d'') : UserFreed m m'' d d'' :=
  ⟨h'.conserved.trans h.conserved, h'.tables.trans h.tables, h'.frame.trans h.frame⟩

theorem frames_eq (h : UserFreed m m' d d') : m'.free + d'.frames = m.free + d.frames := by
  have hc := h.conserved
  calc m'.free + d'.frames = (m'.free + d'.user) + ({d.frame} + d.tables) := by
        rw [Pgdir.frames, h.tables, h.frame]; abel
    _ = (m.free + d.user) + ({d.frame} + d.tables) := by rw [hc]
    _ = m.free + d.frames := by rw [Pgdir.frames]; abel

end UserFreed

section Free

variable {m m' : Kmem} {d d' : Pgdir} {v n oldsz newsz r : ℕ} {s : Panic}

theorem lt_winpage {v sz : ℕ} (hsz : sz ≤ WINPAGE * PGSIZE) (hv : v * PGSIZE < sz) : v < WINPAGE :=
  Nat.lt_of_mul_lt_mul_right (hv.trans_le hsz)

theorem not_below {v x sz : ℕ} (h : sz ≤ v * PGSIZE) : ¬ (v ≤ x ∧ x * PGSIZE < sz) := by
  rintro ⟨hvx, hx⟩
  have := Nat.mul_le_mul_right PGSIZE hvx
  omega

theorem lookup_of_no_table {x : ℕ} (hp : d.pde (v / NPTENTRIES) = none) (hvx : v ≤ x)
    (hx : x < (v / NPTENTRIES + 1) * NPTENTRIES) : d.lookup x = none := by
  have hsame : x / NPTENTRIES = v / NPTENTRIES := by
    apply Nat.le_antisymm
    · exact Nat.le_of_lt_succ (Nat.div_lt_of_lt_mul (by rwa [Nat.mul_comm]))
    · exact Nat.div_le_div_right hvx
  simp [Pgdir.lookup, hsame, hp]

/-- **The loop of `deallocuvm`** frees the pages from `v` up to `oldsz` and no others. -/
theorem deallocLoop_spec (hsz : oldsz ≤ WINPAGE * PGSIZE) (hn : oldsz ≤ (v + n) * PGSIZE)
    (h : deallocLoop oldsz n v d m = .ok (m', d')) : UserFreed m m' d d' ∧
      ∀ x, d'.lookup x = if v ≤ x ∧ x * PGSIZE < oldsz then none else d.lookup x := by
  induction n generalizing v d m with
  | zero =>
    obtain ⟨rfl, rfl⟩ : m = m' ∧ d = d' := by simpa [deallocLoop] using h
    rw [Nat.add_zero] at hn
    exact ⟨.refl _ _, fun x => (if_neg (not_below hn)).symm⟩
  | succ n ih =>
    unfold deallocLoop at h
    by_cases hv : v * PGSIZE < oldsz
    · rw [if_pos hv] at h
      rcases hp : d.pde (v / NPTENTRIES) with _ | tab
      · -- the whole page table is missing
        rw [hp] at h
        have hdiv := Nat.lt_div_mul_add (a := v) (b := NPTENTRIES) (by decide)
        have hnext : v + 1 ≤ (v / NPTENTRIES + 1) * NPTENTRIES := by
          rw [Nat.add_mul, Nat.one_mul]
          omega
        have hfuel : (v + 1 + n) * PGSIZE ≤ ((v / NPTENTRIES + 1) * NPTENTRIES + n) * PGSIZE :=
          Nat.mul_le_mul_right _ (by omega)
        have hn' : v + (n + 1) = v + 1 + n := by omega
        rw [hn'] at hn
        obtain ⟨hu, hl⟩ := ih (hn.trans hfuel) h
        refine ⟨hu, fun x => ?_⟩
        rw [hl x]
        by_cases hx : (v / NPTENTRIES + 1) * NPTENTRIES ≤ x
        · have hvx : v ≤ x := by omega
          simp only [hx, hvx, true_and]
        · rw [if_neg (fun h => hx h.1)]
          by_cases hvx : v ≤ x ∧ x * PGSIZE < oldsz
          · rw [if_pos hvx, lookup_of_no_table hp hvx.1 (Nat.lt_of_not_le hx)]
          · rw [if_neg hvx]
      · rw [hp] at h
        dsimp only at h
        have hfuel : oldsz ≤ (v + 1 + n) * PGSIZE := by
          rwa [show v + 1 + n = v + (n + 1) by omega]
        rcases hpte : tab.pte (v % NPTENTRIES) with _ | e
        · rw [hpte] at h
          obtain ⟨hu, hl⟩ := ih hfuel h
          refine ⟨hu, fun x => ?_⟩
          rw [hl x]
          by_cases hxv : x = v
          · subst hxv
            rw [if_neg (by omega), if_pos ⟨le_rfl, hv⟩, Pgdir.lookup_of_pde hp, hpte]
          · have hiff : v + 1 ≤ x ↔ v ≤ x := by omega
            simp only [hiff]
        · rw [hpte] at h
          dsimp only at h
          split_ifs at h with hzero
          rcases hk : kfree e.frame m with s | m₁
          · rw [hk] at h
            cases h
          · rw [hk] at h
            obtain ⟨hu, hl⟩ := ih hfuel h
            have hset := fun x => Pgdir.lookup_setPte (x := x) hp none
            have hvw := lt_winpage hsz hv
            have hold : d.lookup v = some e := by rw [Pgdir.lookup_of_pde hp, hpte]
            have hchange := Pgdir.user_change (d := d) (b := d.setPte v tab none) hvw
              fun x _ hx => by rw [hset, if_neg hx]
            rw [hold, hset, if_pos rfl, entry_some, entry_none, add_zero] at hchange
            have hfirst : UserFreed m m₁ d (d.setPte v tab none) := by
              refine ⟨?_, Pgdir.tables_setPte hp none, rfl⟩
              rw [(kfree_spec hk).1, ← hchange]
              abel
            refine ⟨hfirst.trans hu, fun x => ?_⟩
            rw [hl x]
            by_cases hxv : x = v
            · subst hxv
              rw [if_neg (by omega), if_pos ⟨le_rfl, hv⟩, hset, if_pos rfl]
            · have hiff : v + 1 ≤ x ↔ v ≤ x := by omega
              simp only [hiff, hset, if_neg hxv]
    · rw [if_neg hv] at h
      obtain ⟨rfl, rfl⟩ : m = m' ∧ d = d' := by simpa using h
      exact ⟨.refl _ _, fun x => (if_neg (not_below (Nat.le_of_not_lt hv))).symm⟩

/-- The number of pages that hold `sz` bytes. -/
def pages (sz : ℕ) : ℕ := PGROUNDUP sz / PGSIZE

theorem pages_eq (sz : ℕ) : pages sz = (sz + PGSIZE - 1) / PGSIZE :=
  Nat.mul_div_cancel _ (by decide)

theorem lt_pages {sz x : ℕ} : x < pages sz ↔ x * PGSIZE < sz := by
  have hpos : 0 < PGSIZE := by decide
  rw [pages_eq, Nat.lt_iff_add_one_le, Nat.le_div_iff_mul_le hpos, Nat.add_mul, Nat.one_mul]
  omega

theorem pages_zero : pages 0 = 0 := by
  rw [pages_eq]
  decide

theorem le_fuel (v sz : ℕ) {b : ℕ} (hb : 0 < b) : sz ≤ (v + (sz / b + 1)) * b := by
  have := Nat.lt_div_mul_add (a := sz) hb
  rw [Nat.add_mul, Nat.add_mul, Nat.one_mul]
  omega

/-- **`deallocuvm`** frees the pages from `newsz` up to `oldsz` and no others. -/
theorem deallocuvm_spec (hsz : oldsz ≤ WINPAGE * PGSIZE)
    (h : deallocuvm d oldsz newsz m = .ok (m', d', r)) :
    UserFreed m m' d d' ∧ r = min oldsz newsz ∧
      ∀ x, d'.lookup x = if pages newsz ≤ x ∧ x * PGSIZE < oldsz then none else d.lookup x := by
  unfold deallocuvm at h
  split_ifs at h with hle
  · obtain ⟨rfl, rfl, rfl⟩ : m = m' ∧ d = d' ∧ oldsz = r := by simpa using h
    refine ⟨.refl _ _, (min_eq_left hle).symm, fun x => ?_⟩
    rw [if_neg]
    rintro ⟨h₁, h₂⟩
    have := lt_pages.mpr (h₂.trans_le hle)
    omega
  · split at h
    · cases h
    · rename_i m₁ d₁ hloop
      obtain ⟨rfl, rfl, rfl⟩ : m₁ = m' ∧ d₁ = d' ∧ newsz = r := by simpa using h
      obtain ⟨hu, hl⟩ := deallocLoop_spec hsz (le_fuel _ _ (by decide)) hloop
      exact ⟨hu, (min_eq_right (by omega)).symm, hl⟩

theorem freeTables_spec (h : freeTables d n v m = .ok m') :
    m'.free = m.free + ∑ i ∈ range n, entry (d.pde (v + i)) fun tab => {tab.frame} := by
  induction n generalizing v m with
  | zero =>
    obtain rfl : m = m' := by simpa [freeTables] using h
    simp
  | succ n ih =>
    have hshift : ∑ i ∈ range n, entry (d.pde (v + (i + 1))) (fun tab => {tab.frame}) =
        ∑ i ∈ range n, entry (d.pde (v + 1 + i)) fun tab => {tab.frame} :=
      Finset.sum_congr rfl fun i _ => by rw [show v + (i + 1) = v + 1 + i by omega]
    rw [sum_range_succ', hshift, Nat.add_zero]
    unfold freeTables at h
    rcases hp : d.pde v with _ | tab
    · rw [hp] at h
      rw [ih h, entry_none, add_zero]
    · rw [hp] at h
      dsimp only at h
      rcases hk : kfree tab.frame m with s | m₁
      · rw [hk] at h
        cases h
      · rw [hk] at h
        rw [ih h, (kfree_spec hk).1, entry_some]
        abel

/-- **`freevm`** frees what the directory owns. -/
theorem freevm_spec (h : freevm d m = .ok m') : m'.free = m.free + d.frames := by
  unfold freevm at h
  rcases hd : deallocuvm d (WINPAGE * PGSIZE) 0 m with s | ⟨m₁, d₁, r⟩
  · rw [hd] at h
    cases h
  · rw [hd] at h
    obtain ⟨hu, -, hl⟩ := deallocuvm_spec le_rfl hd
    dsimp only at h
    rcases ht : freeTables d₁ NPDENTRIES 0 m₁ with s | m₂
    · rw [ht] at h
      cases h
    · rw [ht] at h
      have hfree := freeTables_spec ht
      simp only [Nat.zero_add] at hfree
      have huser : d₁.user = 0 := by
        refine Finset.sum_eq_zero fun x hx => ?_
        have hx := mem_range.mp hx
        have hlt : x * PGSIZE < WINPAGE * PGSIZE := Nat.mul_lt_mul_of_pos_right hx (by decide)
        rw [hl, if_pos ⟨by rw [pages_zero]; omega, hlt⟩, entry_none]
      calc m'.free = {d₁.frame} + m₂.free := (kfree_spec h).1
        _ = {d₁.frame} + (m₁.free + d₁.tables) := by rw [hfree, Pgdir.tables]
        _ = m₁.free + d₁.frames := by rw [Pgdir.frames, huser]; abel
        _ = m.free + d.frames := hu.frames_eq

end Free

/-! ## Mapping one page -/

theorem winpage_lt : WINPAGE < NPAGES := by
  unfold WINPAGE
  decide

section Page

variable {m m' : Kmem} {d d' : Pgdir} {v : ℕ} {w u : Bool} {f : Frame} {s : Panic} {ok : Bool}

theorem mappages_page (d : Pgdir) (v : ℕ) (f : Frame) (w u : Bool) (m : Kmem) :
    mappages d (v * PGSIZE) PGSIZE (f * PGSIZE) w u m = mapLoop w u 1 v f d m := by
  have hpos : 0 < PGSIZE := by decide
  have hone : 1 ≤ PGSIZE := by decide
  have hlast : (v * PGSIZE + PGSIZE - 1) / PGSIZE = v := by
    rw [Nat.add_sub_assoc hone, Nat.mul_comm, Nat.mul_add_div hpos]
    have : (PGSIZE - 1) / PGSIZE = 0 := by decide
    omega
  rw [mappages, hlast, Nat.mul_div_cancel _ hpos, Nat.mul_div_cancel _ hpos, Nat.sub_self]

theorem mapPage_spec (hv : v < NPAGES)
    (h : mappages d (v * PGSIZE) PGSIZE (f * PGSIZE) w u m = .ok (m', d', ok)) :
    TablesFrom m m' d d' ∧ (ok = true → d.lookup v = none) ∧
      ∀ x, d'.lookup x = if ok = true ∧ x = v then some ⟨f, w, u⟩ else d.lookup x := by
  rw [mappages_page] at h
  obtain ⟨k, hk, hok, ht, hfresh, hl⟩ := mapLoop_spec hv h
  refine ⟨ht, fun h => ?_, fun x => ?_⟩
  · have := hok.mp h
    exact hfresh v le_rfl (by omega)
  · rw [hl x]
    by_cases hx : ok = true ∧ x = v
    · have := hok.mp hx.1
      rw [if_pos hx, if_pos (by omega), hx.2, Nat.sub_self, Nat.add_zero]
    · rw [if_neg hx, if_neg]
      rintro ⟨h₁, h₂⟩
      exact hx ⟨hok.mpr (by omega), by omega⟩

theorem mapPage_error (hv : v < NPAGES) (hnone : d.lookup v = none)
    (h : mappages d (v * PGSIZE) PGSIZE (f * PGSIZE) w u m = .error s) : False := by
  rw [mappages_page] at h
  obtain ⟨-, x, h₁, h₂, hx⟩ := mapLoop_error hv h
  obtain rfl : x = v := by omega
  rw [hnone] at hx
  cases hx

theorem mapPage_owned (hv : v < WINPAGE)
    (h : mappages d (v * PGSIZE) PGSIZE (f * PGSIZE) w u m = .ok (m', d', ok)) :
    m'.free + d'.frames = m.free + d.frames + if ok = true then {f} else 0 := by
  obtain ⟨ht, hfresh, hl⟩ := mapPage_spec (hv.trans winpage_lt) h
  cases ok with
  | false =>
    have hu : d'.user = d.user := Pgdir.user_congr fun x _ => by rw [hl, if_neg (by simp)]
    rw [ht.frames_eq hu]
    simp
  | true =>
    have hchange := Pgdir.user_change (d := d) (b := d') hv
      fun x _ hx => by rw [hl, if_neg fun h => hx h.2]
    rw [hfresh rfl, hl, if_pos ⟨rfl, rfl⟩, entry_none, entry_some, add_zero] at hchange
    have hc := ht.conserved
    calc m'.free + d'.frames = (m'.free + d'.tables) + ({d.frame} + d.user + {f}) := by
          rw [Pgdir.frames, ht.frame, hchange]; abel
      _ = (m.free + d.tables) + ({d.frame} + d.user + {f}) := by rw [hc]
      _ = m.free + d.frames + {f} := by rw [Pgdir.frames]; abel

end Page

end OsPlayground
