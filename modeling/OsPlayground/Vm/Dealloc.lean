import OsPlayground.Vm.Copyout

/-!
# The range of `deallocuvm`

* `PDX`, `PTX`, `PGADDR`, `deallocRound`, `deallocRounds`: the loop with its 32-bit addresses.
* `released`: the frames of the present pages of a range, in order.
* `deallocLoop_released`: `kfree` is called on those, one after another.
* **`dealloc_exact`**: exactly the range is freed, and the loop ends.
-/

namespace OsPlayground

/-! ## The code, with 32-bit addresses -/

/-- `PDX(va)`. -/
def PDX (va : ℕ) : ℕ := va / 4194304 % 1024

/-- `PTX(va)`. -/
def PTX (va : ℕ) : ℕ := va / PGSIZE % 1024

/-- `PGADDR(d, t, o)`. -/
def PGADDR (d t o : ℕ) : ℕ := (d * 4194304 ||| t * PGSIZE ||| o) % ADDRS

/-- `PGROUNDUP` of a `uint`. -/
def PGROUNDUP32 (sz : ℕ) : ℕ := (sz + PGSIZE - 1) % ADDRS / PGSIZE * PGSIZE

/-- The body of the loop of `deallocuvm`: the new `a`. -/
def deallocRound (a : ℕ) (d : Pgdir) (m : Kmem) : Except Panic (ℕ × Pgdir × Kmem) :=
  match walkpgdir d (a / PGSIZE) false m with
  | (m, d, none) => .ok ((PGADDR (PDX a + 1) 0 0 + (ADDRS - PGSIZE)) % ADDRS, d, m)
  | (m, d, some tab) =>
    match tab.pte (PTX a) with
    | none => .ok (a, d, m)
    | some e =>
      if e.frame = 0 then .error "kfree"
      else
        match kfree e.frame m with
        | .error s => .error s
        | .ok m => .ok (a, d.setPte (a / PGSIZE) tab none, m)

/-- The loop of `deallocuvm`, for at most `n` tests of its condition. -/
def deallocRounds (oldsz : ℕ) : ℕ → ℕ → Pgdir → Kmem → Option (Except Panic (Kmem × Pgdir))
  | 0, _, _, _ => none
  | n + 1, a, d, m =>
    if a < oldsz then
      match deallocRound a d m with
      | .error s => some (.error s)
      | .ok (a, d, m) => deallocRounds oldsz n ((a + PGSIZE) % ADDRS) d m
    else some (.ok (m, d))

/-- `deallocuvm`, if `n` tests of the loop condition are enough. -/
def deallocuvm32 (n : ℕ) (d : Pgdir) (oldsz newsz : ℕ) (m : Kmem) :
    Option (Except Panic (Kmem × Pgdir × ℕ)) :=
  if oldsz ≤ newsz then some (.ok (m, d, oldsz))
  else
    match deallocRounds oldsz n (PGROUNDUP32 newsz) d m with
    | none => none
    | some (.error s) => some (.error s)
    | some (.ok (m, d)) => some (.ok (m, d, newsz))

/-! ## The loop on pages -/

section Refinement

variable {m : Kmem} {d : Pgdir} {oldsz n v w : ℕ}

theorem next_slot (hv : v < 524288) :
    ((PGADDR (PDX (v * PGSIZE) + 1) 0 0 + (ADDRS - PGSIZE)) % ADDRS + PGSIZE) % ADDRS =
      (v / NPTENTRIES + 1) * NPTENTRIES * PGSIZE := by
  have hpdx : PDX (v * PGSIZE) = v / NPTENTRIES := by
    unfold PDX PGSIZE NPTENTRIES
    omega
  rw [hpdx, PGADDR, Nat.zero_mul, Nat.or_zero, Nat.or_zero]
  unfold ADDRS PGSIZE NPTENTRIES
  omega

theorem lt_kernpage (hsz : oldsz ≤ KERNBASE) (hlt : v * PGSIZE < oldsz) : v < 524288 := by
  unfold KERNBASE at hsz
  unfold PGSIZE at hlt
  omega

theorem next_page (hv : v < 524288) : (v * PGSIZE + PGSIZE) % ADDRS = (v + 1) * PGSIZE := by
  unfold ADDRS PGSIZE
  omega

theorem succ_fuel (h : oldsz ≤ (v + (n + 1)) * PGSIZE) (hw : v + 1 ≤ w) : oldsz ≤ (w + n) * PGSIZE :=
  h.trans (Nat.mul_le_mul_right _ (by omega))

theorem lt_next_slot (v : ℕ) : v + 1 ≤ (v / NPTENTRIES + 1) * NPTENTRIES := by
  unfold NPTENTRIES
  omega

theorem PTX_page (v : ℕ) : PTX (v * PGSIZE) = v % NPTENTRIES := by
  unfold PTX
  rw [Nat.mul_div_cancel v (by decide)]

/-- **The loop on addresses is the loop on pages**, and it ends. -/
theorem deallocRounds_eq (hsz : oldsz ≤ KERNBASE) (hn : oldsz ≤ (v + n) * PGSIZE) :
    deallocRounds oldsz (n + 1) (v * PGSIZE) d m = some (deallocLoop oldsz n v d m) := by
  induction n generalizing v d m with
  | zero =>
    have hstop : ¬ v * PGSIZE < oldsz := Nat.not_lt.2 hn
    rw [deallocRounds, if_neg hstop, deallocLoop]
  | succ n ih =>
    rw [deallocRounds, deallocLoop]
    by_cases hlt : v * PGSIZE < oldsz
    · have hv := lt_kernpage hsz hlt
      have hdiv : v * PGSIZE / PGSIZE = v := Nat.mul_div_cancel v (by decide)
      have hinc := next_page hv
      have hfuel := succ_fuel hn le_rfl
      rw [if_pos hlt, if_pos hlt, deallocRound, hdiv, walkpgdir, PTX_page]
      rcases d.pde (v / NPTENTRIES) with _ | tab
      · dsimp only
        rw [if_neg Bool.false_ne_true]
        dsimp only
        rw [next_slot hv]
        exact ih (succ_fuel hn (lt_next_slot v))
      · dsimp only
        rcases tab.pte (v % NPTENTRIES) with _ | e
        · dsimp only
          rw [hinc]
          exact ih hfuel
        · dsimp only
          by_cases hz : e.frame = 0
          · rw [if_pos hz, if_pos hz]
          · rw [if_neg hz, if_neg hz]
            rcases kfree e.frame m with s | m'
            · rfl
            · dsimp only
              rw [hinc]
              exact ih hfuel
    · rw [if_neg hlt, if_neg hlt]

end Refinement

/-! ## What is freed -/

/-- The frames of the present pages from `v` up to `w`, in order. -/
def released (d : Pgdir) (v w : ℕ) : List Frame :=
  (List.range' v (w - v)).filterMap fun x => (d.lookup x).map Pte.frame

section Released

variable {m : Kmem} {d d' : Pgdir} {oldsz n v w u : ℕ} {e : Pte}

theorem released_congr (h : ∀ x, v ≤ x → x < w → d'.lookup x = d.lookup x) :
    released d' v w = released d v w := by
  refine List.filterMap_congr fun x hx => ?_
  rw [List.mem_range'_1] at hx
  rw [h x hx.1 (by omega)]

theorem released_of_le (h : w ≤ v) : released d v w = [] := by
  rw [released, Nat.sub_eq_zero_of_le h]
  rfl

theorem released_succ (h : v < w) :
    released d v w = ((d.lookup v).map Pte.frame).toList ++ released d (v + 1) w := by
  rw [released, released, show w - v = w - (v + 1) + 1 by omega, List.range'_succ]
  cases hl : d.lookup v with
  | none => rw [List.filterMap_cons_none (by rw [hl]; rfl)]; rfl
  | some e => rw [List.filterMap_cons_some (b := e.frame) (by rw [hl]; rfl)]; rfl

theorem released_skip (hvu : v ≤ u) (h : ∀ x, v ≤ x → x < u → d.lookup x = none) :
    released d v w = released d u w := by
  induction u, hvu using Nat.le_induction with
  | base => rfl
  | succ u hvu ih =>
    rw [ih fun x h₁ h₂ => h x h₁ (by omega)]
    rcases Nat.lt_or_ge u w with hw | hw
    · rw [released_succ hw, h u hvu (Nat.lt_succ_self u)]
      rfl
    · rw [released_of_le hw, released_of_le (by omega)]

theorem mem_released {f : Frame} :
    f ∈ released d v w ↔ ∃ x, v ≤ x ∧ x < w ∧ ∃ e, d.lookup x = some e ∧ e.frame = f := by
  simp only [released, List.mem_filterMap, List.mem_range'_1, Option.map_eq_some_iff]
  constructor
  · rintro ⟨x, hx, e, he⟩
    exact ⟨x, hx.1, by omega, e, he⟩
  · rintro ⟨x, h₁, h₂, e, he⟩
    exact ⟨x, ⟨h₁, by omega⟩, e, he⟩

theorem nodup_released (h : ∀ x y e e', v ≤ x → x < w → v ≤ y → y < w → d.lookup x = some e →
    d.lookup y = some e' → e.frame = e'.frame → x = y) : (released d v w).Nodup := by
  induction hk : w - v generalizing v with
  | zero =>
    rw [released_of_le (by omega)]
    exact List.nodup_nil
  | succ k ih =>
    have hvw : v < w := by omega
    rw [released_succ hvw]
    have hrest := ih (v := v + 1) (fun x y e e' h₁ h₂ h₃ h₄ => h x y e e' (by omega) h₂ (by omega) h₄)
      (by omega)
    rcases hl : d.lookup v with _ | e
    · exact hrest
    · refine List.nodup_cons.2 ⟨fun hmem => ?_, hrest⟩
      obtain ⟨x, h₁, h₂, e', he', hf⟩ := mem_released.1 hmem
      have := h x v e' e (by omega) h₂ le_rfl hvw he' hl hf
      omega

/-- **The loop of `deallocuvm`** calls `kfree` on the frames of the present pages from `v` on and clears
their entries. -/
theorem deallocLoop_released (hn : oldsz ≤ (v + n) * PGSIZE)
    (hok : ∀ f ∈ released d v (pages oldsz), kfreeOk f) :
    ∃ m' d', deallocLoop oldsz n v d m = .ok (m', d') ∧
      (released d v (pages oldsz)).foldlM (fun m f => kfree f m) m = .ok m' ∧
      (∀ x, d'.lookup x = if v ≤ x ∧ x * PGSIZE < oldsz then none else d.lookup x) ∧
      d'.frame = d.frame ∧ ∀ i, (d'.pde i).map PgTab.frame = (d.pde i).map PgTab.frame := by
  have hstop : ∀ {v : ℕ} {d : Pgdir} {m : Kmem}, oldsz ≤ v * PGSIZE →
      (released d v (pages oldsz)).foldlM (fun m f => kfree f m) m = (.ok m : Except Panic Kmem) ∧
      ∀ x, d.lookup x = if v ≤ x ∧ x * PGSIZE < oldsz then none else d.lookup x := by
    intro v d m hle
    have hpages : pages oldsz ≤ v := Nat.le_of_not_lt fun h => by
      have := lt_pages.1 h
      omega
    rw [released_of_le hpages]
    exact ⟨rfl, fun x => (if_neg (not_below hle)).symm⟩
  induction n generalizing v d m with
  | zero =>
    obtain ⟨hfree, hl⟩ := hstop (v := v) (d := d) (m := m) hn
    exact ⟨m, d, rfl, hfree, hl, rfl, fun _ => rfl⟩
  | succ n ih =>
    unfold deallocLoop
    by_cases hv : v * PGSIZE < oldsz
    swap
    · obtain ⟨hfree, hl⟩ := hstop (v := v) (d := d) (m := m) (Nat.le_of_not_lt hv)
      exact ⟨m, d, if_neg hv, hfree, hl, rfl, fun _ => rfl⟩
    rw [if_pos hv]
    have hvp := lt_pages.2 hv
    have hfuel := succ_fuel hn le_rfl
    rcases hp : d.pde (v / NPTENTRIES) with _ | tab
    · -- no page of the missing table is skipped that is there
      have hnext := lt_next_slot v
      have hskip : released d v (pages oldsz) =
          released d ((v / NPTENTRIES + 1) * NPTENTRIES) (pages oldsz) :=
        released_skip (by omega) fun x h₁ h₂ => lookup_of_no_table hp h₁ h₂
      rw [hskip] at hok ⊢
      obtain ⟨m', d', hloop, hfree, hl, hframe, htab⟩ := ih (m := m) (succ_fuel hn hnext) hok
      refine ⟨m', d', hloop, hfree, fun x => ?_, hframe, htab⟩
      rw [hl x]
      by_cases hx : (v / NPTENTRIES + 1) * NPTENTRIES ≤ x
      · have hvx : v ≤ x := by omega
        simp only [hx, hvx, true_and]
      · rw [if_neg fun h => hx h.1]
        split_ifs with hvx
        · exact lookup_of_no_table hp hvx.1 (Nat.lt_of_not_le hx)
        · rfl
    · dsimp only
      have hold : d.lookup v = tab.pte (v % NPTENTRIES) := Pgdir.lookup_of_pde hp
      rw [released_succ hvp, hold] at hok ⊢
      rcases hpte : tab.pte (v % NPTENTRIES) with _ | e
      · rw [hpte] at hok hold
        obtain ⟨m', d', hloop, hfree, hl, hframe, htab⟩ := ih (m := m) hfuel hok
        refine ⟨m', d', hloop, hfree, fun x => ?_, hframe, htab⟩
        rw [hl x]
        by_cases hxv : x = v
        · subst hxv
          rw [if_neg (by omega), if_pos ⟨le_rfl, hv⟩, hold]
        · have hiff : v + 1 ≤ x ↔ v ≤ x := by omega
          simp only [hiff]
      · rw [hpte] at hok hold
        obtain ⟨he, hok⟩ := List.forall_mem_cons.1 hok
        obtain ⟨m₁, hk⟩ := kfree_total he m
        have hset := fun x => Pgdir.lookup_setPte (x := x) hp none
        have hrest : released (d.setPte v tab none) (v + 1) (pages oldsz) =
            released d (v + 1) (pages oldsz) :=
          released_congr fun x h₁ _ => by rw [hset, if_neg (by omega)]
        obtain ⟨m', d', hloop, hfree, hl, hframe, htab⟩ :=
          ih (d := d.setPte v tab none) (m := m₁) hfuel (by rwa [hrest])
        rw [hrest] at hfree
        refine ⟨m', d', ?_, ?_, fun x => ?_, hframe, fun i => ?_⟩
        · dsimp only
          rw [if_neg (kfreeOk_ne_zero he), hk]
          exact hloop
        · rw [Option.map_some, Option.toList_some, List.singleton_append, List.foldlM_cons, hk]
          exact hfree
        · rw [hl x]
          by_cases hxv : x = v
          · subst hxv
            rw [if_neg (by omega), if_pos ⟨le_rfl, hv⟩, hset, if_pos rfl]
          · have hiff : v + 1 ≤ x ↔ v ≤ x := by omega
            simp only [hiff, hset, if_neg hxv]
        · rw [htab i]
          by_cases hi : i = v / NPTENTRIES
          · subst hi
            simp [Pgdir.setPte, Pgdir.setPde, hp]
          · simp [Pgdir.setPte, Pgdir.setPde, Function.update_of_ne hi]

end Released

/-! ## `deallocuvm` -/

/-- What `deallocuvm` should do to the pages of the range. -/
structure Deallocated (d : Pgdir) (m : Kmem) (oldsz newsz : ℕ) (m' : Kmem) (d' : Pgdir) : Prop where
  /-- The calls of `kfree`. -/
  freed : (released d (pages newsz) (pages oldsz)).foldlM (fun m f => kfree f m) m = .ok m'
  once : ∀ x, pages newsz ≤ x → x * PGSIZE < oldsz → ∀ e, d.lookup x = some e →
    (released d (pages newsz) (pages oldsz)).count e.frame = 1
  lookup : ∀ x, d'.lookup x = if pages newsz ≤ x ∧ x * PGSIZE < oldsz then none else d.lookup x
  frame : d'.frame = d.frame
  tables : ∀ i, (d'.pde i).map PgTab.frame = (d.pde i).map PgTab.frame

theorem PGROUNDUP32_eq {newsz : ℕ} (h : newsz < KERNBASE) :
    PGROUNDUP32 newsz = pages newsz * PGSIZE := by
  have hmod : (newsz + PGSIZE - 1) % ADDRS = newsz + PGSIZE - 1 := by
    unfold KERNBASE at h
    unfold ADDRS PGSIZE
    omega
  rw [PGROUNDUP32, hmod, pages_eq]

/-- **`deallocuvm` frees exactly the range.** -/
theorem dealloc_exact (d : Pgdir) (m : Kmem) {oldsz newsz n : ℕ} (hsz : oldsz ≤ KERNBASE)
    (hok : ∀ x < KERNBASE / PGSIZE, ∀ e, d.lookup x = some e → kfreeOk e.frame)
    (hdistinct : ∀ x < KERNBASE / PGSIZE, ∀ y < KERNBASE / PGSIZE, ∀ e e', d.lookup x = some e →
      d.lookup y = some e' → e.frame = e'.frame → x = y)
    (hn : oldsz / PGSIZE + 2 ≤ n) :
    (newsz < oldsz → ∃ m' d', deallocuvm32 n d oldsz newsz m = some (.ok (m', d', newsz)) ∧
      Deallocated d m oldsz newsz m' d') ∧
    (oldsz ≤ newsz → deallocuvm32 n d oldsz newsz m = some (.ok (m, d, oldsz))) := by
  refine ⟨fun hlt => ?_, fun hle => if_pos hle⟩
  have hpage : ∀ {x : ℕ}, x < pages oldsz → x < KERNBASE / PGSIZE := fun hx =>
    lt_kernpage hsz (lt_pages.1 hx)
  obtain ⟨n, rfl⟩ := Nat.exists_eq_add_of_le' ((Nat.le_add_left 1 _).trans hn)
  have hfuel : oldsz ≤ (pages newsz + n) * PGSIZE :=
    (le_fuel (pages newsz) oldsz (by decide)).trans
      (Nat.mul_le_mul_right _ (Nat.add_le_add_left (Nat.le_of_succ_le_succ hn) _))
  obtain ⟨m', d', hloop, hfree, hl, hframe, htab⟩ := deallocLoop_released (m := m) hfuel
    fun f hf => by
      obtain ⟨x, -, hx, e, he, rfl⟩ := mem_released.1 hf
      exact hok x (hpage hx) e he
  refine ⟨m', d', ?_, hfree, fun x h₁ h₂ e he => ?_, hl, hframe, htab⟩
  · rw [deallocuvm32, if_neg (by omega), PGROUNDUP32_eq (by omega), deallocRounds_eq hsz hfuel, hloop]
  · have hnodup : (released d (pages newsz) (pages oldsz)).Nodup :=
      nodup_released fun x y e e' _ h₂ _ h₄ => hdistinct x (hpage h₂) y (hpage h₄) e e'
    exact List.count_eq_one_of_mem hnodup (mem_released.2 ⟨x, h₁, lt_pages.2 h₂, e, he, rfl⟩)

/-- Page tables for the first and the third 4 MB and none in between, with a page in each: the pages 1
and 2053. -/
def gapDir : Pgdir where
  frame := 300
  pde i :=
    if i = 0 then some ⟨301, fun j => if j = 1 then some ⟨303, true, true⟩ else none⟩
    else if i = 2 then some ⟨302, fun j => if j = 5 then some ⟨304, true, true⟩ else none⟩
    else none

theorem lookup_gapDir {x : ℕ} {e : Pte} (h : gapDir.lookup x = some e) :
    x = 1 ∧ e.frame = 303 ∨ x = 2053 ∧ e.frame = 304 := by
  have hN : NPTENTRIES = 1024 := rfl
  unfold Pgdir.lookup gapDir at h
  dsimp only at h
  rw [hN] at h
  split_ifs at h with h₀ h₂
  · dsimp only [Option.bind_some] at h
    split_ifs at h with hx
    rw [← Option.some.inj h]
    exact .inl ⟨by omega, rfl⟩
  · dsimp only [Option.bind_some] at h
    split_ifs at h with hx
    rw [← Option.some.inj h]
    exact .inr ⟨by omega, rfl⟩
  · cases h

/-- 9 MB are given back but for 100 bytes, across the missing page table. -/
theorem dealloc_exact_gap : ∃ m' d',
    deallocuvm32 2400 gapDir 0x900000 100 ⟨[], fun _ _ => 0⟩ = some (.ok (m', d', 100)) ∧
      Deallocated gapDir ⟨[], fun _ _ => 0⟩ 0x900000 100 m' d' := by
  refine (dealloc_exact gapDir ⟨[], fun _ _ => 0⟩ (by decide) (fun x _ e h => ?_)
    (fun x _ y _ e e' h h' heq => ?_) (by decide)).1 (by decide)
  · rcases lookup_gapDir h with ⟨-, he⟩ | ⟨-, he⟩
    · rw [he]
      decide
    · rw [he]
      decide
  · rcases lookup_gapDir h with ⟨rfl, he⟩ | ⟨rfl, he⟩ <;>
      rcases lookup_gapDir h' with ⟨rfl, he'⟩ | ⟨rfl, he'⟩
    · rfl
    · rw [he, he'] at heq
      cases heq
    · rw [he, he'] at heq
      cases heq
    · rfl

end OsPlayground
