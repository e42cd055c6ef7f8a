import OsPlayground.Vm.Owned

/-!
# What is in the frames

Frames are written when they are taken from the free list or returned to it, and at no other time.

* `Taken`, `Freed`: the frames outside the free list before, or after, keep their bytes.
* `Valid`: frames that occur once and that `kfree` accepts.
* `deallocuvm_total`, **`freevm_total`**, `mapPage_total`: no panic for a directory with valid frames.
-/

namespace OsPlayground

open Lib Finset

/-! ## Bytes -/

/-- Frames left the free list; no other frame was written. -/
structure Taken (m m' : Kmem) : Prop where
  le : m'.free ≤ m.free
  mem : ∀ f ∉ m.free, m'.mem f = m.mem f

/-- Frames came to the free list; no other frame was written. -/
structure Freed (m m' : Kmem) : Prop where
  le : m.free ≤ m'.free
  mem : ∀ f ∉ m'.free, m'.mem f = m.mem f

section Bytes

variable {m m' m'' : Kmem} {d d' : Pgdir} {f : Frame} {v n oldsz newsz r : ℕ}

theorem Taken.refl (m : Kmem) : Taken m m := ⟨le_rfl, fun _ _ => rfl⟩

theorem Taken.trans (h : Taken m m') (h' : Taken m' m'') : Taken m m'' where
  le := h'.le.trans h.le
  mem f hf := (h'.mem f fun hm => hf (Multiset.mem_of_le h.le hm)).trans (h.mem f hf)

theorem Freed.refl (m : Kmem) : Freed m m := ⟨le_rfl, fun _ _ => rfl⟩

theorem Freed.trans (h : Freed m m') (h' : Freed m' m'') : Freed m m'' where
  le := h.le.trans h'.le
  mem f hf := (h'.mem f hf).trans (h.mem f fun hm => hf (Multiset.mem_of_le h'.le hm))

theorem kalloc_mem (h : kalloc m = (m', some f)) : m'.mem = m.mem := by
  unfold kalloc at h
  split at h
  · cases h
  · obtain ⟨rfl, -⟩ := Prod.mk.inj h
    rfl

theorem kalloc_taken (h : kalloc m = (m', some f)) : Taken m m' := by
  refine ⟨?_, fun g _ => by rw [kalloc_mem h]⟩
  rw [kalloc_some h]
  exact Multiset.le_add_left _ _

theorem Taken.write {b : ℕ → ℕ} (h : Taken m m') (hf : f ∈ m.free) :
    Taken m ⟨m'.freelist, Function.update m'.mem f b⟩ where
  le := h.le
  mem g hg := by
    have hne : g ≠ f := fun he => hg (he ▸ hf)
    show Function.update m'.mem f b g = m.mem g
    rw [Function.update_of_ne hne, h.mem g hg]

theorem mem_of_kalloc (h : kalloc m = (m', some f)) : f ∈ m.free := by
  rw [kalloc_some h]
  exact Multiset.mem_add.2 (Or.inl (Multiset.mem_singleton_self f))

theorem kfree_freed (h : kfree f m = .ok m') : Freed m m' := by
  have hfree := (kfree_spec h).1
  unfold kfree at h
  split_ifs at h
  obtain rfl := Except.ok.inj h
  refine ⟨by rw [hfree]; exact Multiset.le_add_left _ _, fun g hg => ?_⟩
  have hne : g ≠ f := by
    rintro rfl
    rw [hfree] at hg
    exact hg (Multiset.mem_add.2 (Or.inl (Multiset.mem_singleton_self g)))
  exact Function.update_of_ne hne _ _

theorem walkpgdir_taken {o : Option PgTab} (h : walkpgdir d v true m = (m', d', o)) :
    Taken m m' := by
  unfold walkpgdir at h
  split at h
  · obtain ⟨rfl, -, -⟩ : m = m' ∧ d = d' ∧ some _ = o := by simpa using h
    exact .refl m
  · rw [if_pos rfl] at h
    split at h
    · rename_i hk
      obtain ⟨rfl, -, -⟩ : _ = m' ∧ d = d' ∧ none = o := by simpa using h
      rw [(kalloc_none hk).1]
      exact .refl m
    · rename_i hk
      obtain ⟨rfl, -⟩ := Prod.mk.inj h
      exact (kalloc_taken hk).write (mem_of_kalloc hk)

theorem mapLoop_taken {w u ok : Bool} (h : mapLoop w u n v f d m = .ok (m', d', ok)) :
    Taken m m' := by
  induction n generalizing v f d m with
  | zero =>
    obtain ⟨rfl, -⟩ : m = m' ∧ _ := by simpa [mapLoop] using h
    exact .refl m
  | succ n ih =>
    unfold mapLoop at h
    split at h
    · rename_i hw
      obtain ⟨rfl, -⟩ := Prod.mk.inj (Except.ok.inj h)
      exact walkpgdir_taken hw
    · rename_i hw
      split_ifs at h
      exact (walkpgdir_taken hw).trans (ih h)

theorem deallocLoop_freed (h : deallocLoop oldsz n v d m = .ok (m', d')) : Freed m m' := by
  induction n generalizing v d m with
  | zero =>
    obtain ⟨rfl, -⟩ : m = m' ∧ _ := by simpa [deallocLoop] using h
    exact .refl m
  | succ n ih =>
    unfold deallocLoop at h
    split_ifs at h
    · split at h
      · exact ih h
      · split at h
        · exact ih h
        · split_ifs at h
          split at h
          · cases h
          · rename_i hk
            exact (kfree_freed hk).trans (ih h)
    · obtain ⟨rfl, -⟩ := Prod.mk.inj (Except.ok.inj h)
      exact .refl m

theorem deallocuvm_freed (h : deallocuvm d oldsz newsz m = .ok (m', d', r)) : Freed m m' := by
  unfold deallocuvm at h
  split_ifs at h
  · obtain ⟨rfl, -⟩ := Prod.mk.inj (Except.ok.inj h)
    exact .refl m
  · split at h
    · cases h
    · rename_i hloop
      obtain ⟨rfl, -⟩ := Prod.mk.inj (Except.ok.inj h)
      exact deallocLoop_freed hloop

theorem freeTables_freed (h : freeTables d n v m = .ok m') : Freed m m' := by
  induction n generalizing v m with
  | zero =>
    obtain rfl : m = m' := by simpa [freeTables] using h
    exact .refl m
  | succ n ih =>
    unfold freeTables at h
    split at h
    · exact ih h
    · split at h
      · cases h
      · rename_i hk
        exact (kfree_freed hk).trans (ih h)

theorem freevm_freed (h : freevm d m = .ok m') : Freed m m' := by
  unfold freevm at h
  split at h
  · cases h
  · rename_i hd
    split at h
    · cases h
    · rename_i ht
      exact ((deallocuvm_freed hd).trans (freeTables_freed ht)).trans (kfree_freed h)

end Bytes

/-! ## No panic -/

/-- Every frame occurs once and can be freed. -/
structure Valid (X : Multiset Frame) : Prop where
  nodup : X.Nodup
  ok : ∀ f ∈ X, kfreeOk f

theorem Valid.mono {X Y : Multiset Frame} (h : Valid X) (hY : Y ≤ X) : Valid Y :=
  ⟨Multiset.nodup_of_le hY h.nodup, fun f hf => h.ok f (Multiset.mem_of_le hY hf)⟩

theorem kfreeOk_ne_zero {f : Frame} (h : kfreeOk f) : f ≠ 0 := by
  rintro rfl
  exact absurd h (by decide)

section Total

variable {m : Kmem} {d : Pgdir} {f : Frame} {v n oldsz newsz : ℕ}

theorem kfree_total (h : kfreeOk f) (m : Kmem) : ∃ m', kfree f m = .ok m' := by
  rw [kfree, if_pos h]
  exact ⟨_, rfl⟩

theorem mem_frames : f ∈ d.frames ↔ f = d.frame ∨ f ∈ d.tables ∨ f ∈ d.user := by
  rw [Pgdir.frames, Multiset.mem_add, Multiset.mem_add, Multiset.mem_singleton, or_assoc]

theorem mem_user_iff : f ∈ d.user ↔ ∃ v < WINPAGE, ∃ e, d.lookup v = some e ∧ e.frame = f := by
  rw [Pgdir.user, Multiset.mem_sum]
  constructor
  · rintro ⟨v, hv, hf⟩
    cases he : d.lookup v with
    | none => simp [he] at hf
    | some e =>
      rw [he, entry_some, Multiset.mem_singleton] at hf
      exact ⟨v, mem_range.1 hv, e, he, hf.symm⟩
  · rintro ⟨v, hv, e, he, rfl⟩
    exact ⟨v, mem_range.2 hv, by rw [he, entry_some]; exact Multiset.mem_singleton_self _⟩

theorem mem_user {e : Pte} (hv : v < WINPAGE) (h : d.lookup v = some e) : e.frame ∈ d.user :=
  mem_user_iff.2 ⟨v, hv, e, h, rfl⟩

theorem mem_tables {tab : PgTab} (hv : v < NPDENTRIES) (h : d.pde v = some tab) :
    tab.frame ∈ d.tables := by
  rw [Pgdir.tables, Multiset.mem_sum]
  exact ⟨v, mem_range.2 hv, by rw [h, entry_some]; exact Multiset.mem_singleton_self _⟩

theorem deallocLoop_total (hsz : oldsz ≤ WINPAGE * PGSIZE) (hok : ∀ f ∈ d.user, kfreeOk f) :
    ∃ m' d', deallocLoop oldsz n v d m = .ok (m', d') := by
  induction n generalizing v d m with
  | zero => exact ⟨m, d, rfl⟩
  | succ n ih =>
    unfold deallocLoop
    split_ifs with hv
    · split
      · exact ih hok
      · rename_i tab hp
        split
        · exact ih hok
        · rename_i e hpte
          have hvw := lt_winpage hsz hv
          have hold : d.lookup v = some e := by rw [Pgdir.lookup_of_pde hp, hpte]
          have he := hok e.frame (mem_user hvw hold)
          rw [if_neg (kfreeOk_ne_zero he)]
          obtain ⟨m₁, hk⟩ := kfree_total he m
          rw [hk]
          refine ih fun f hf => ?_
          have hset := fun x => Pgdir.lookup_setPte (x := x) hp none
          have hchange := Pgdir.user_change (d := d) (b := d.setPte v tab none) hvw
            fun x _ hx => by rw [hset, if_neg hx]
          rw [hset, if_pos rfl, entry_none, add_zero] at hchange
          exact hok f (hchange ▸ Multiset.mem_add.2 (Or.inl hf))
    · exact ⟨m, d, rfl⟩

theorem deallocuvm_total (hsz : oldsz ≤ WINPAGE * PGSIZE) (hok : ∀ f ∈ d.user, kfreeOk f)
    (newsz : ℕ) (m : Kmem) : ∃ m' d' r, deallocuvm d oldsz newsz m = .ok (m', d', r) := by
  unfold deallocuvm
  split_ifs
  · exact ⟨m, d, oldsz, rfl⟩
  · obtain ⟨m', d', h⟩ := deallocLoop_total (m := m) (n := oldsz / PGSIZE + 1)
      (v := PGROUNDUP newsz / PGSIZE) hsz hok
    rw [h]
    exact ⟨m', d', newsz, rfl⟩

theorem freeTables_total (hv : v + n ≤ NPDENTRIES) (hok : ∀ f ∈ d.tables, kfreeOk f) (m : Kmem) :
    ∃ m', freeTables d n v m = .ok m' := by
  induction n generalizing v m with
  | zero => exact ⟨m, rfl⟩
  | succ n ih =>
    unfold freeTables
    split
    · exact ih (by omega) m
    · rename_i tab hp
      have hlt : v < NPDENTRIES := by omega
      obtain ⟨m₁, hk⟩ := kfree_total (hok _ (mem_tables hlt hp)) m
      rw [hk]
      exact ih (by omega) m₁

theorem freevm_eq {m₁ m₂ : Kmem} {d₁ : Pgdir} {r : ℕ}
    (hd : deallocuvm d (WINPAGE * PGSIZE) 0 m = .ok (m₁, d₁, r))
    (ht : freeTables d₁ NPDENTRIES 0 m₁ = .ok m₂) : freevm d m = kfree d₁.frame m₂ := by
  unfold freevm
  rw [hd]
  dsimp only
  rw [ht]

/-- **`freevm`** does not panic. -/
theorem freevm_total (hok : ∀ f ∈ d.frames, kfreeOk f) (m : Kmem) : ∃ m', freevm d m = .ok m' := by
  obtain ⟨m₁, d₁, r, hd⟩ := deallocuvm_total le_rfl
    (fun f hf => hok f (mem_frames.2 (Or.inr (Or.inr hf)))) 0 m
  obtain ⟨hu, -, -⟩ := deallocuvm_spec le_rfl hd
  have htables : ∀ f ∈ d₁.tables, kfreeOk f := fun f hf =>
    hok f (mem_frames.2 (Or.inr (Or.inl (hu.tables ▸ hf))))
  have hall : ∀ n ≤ NPDENTRIES, ∃ m₂, freeTables d₁ n 0 m₁ = .ok m₂ := fun n hn =>
    freeTables_total (by rwa [Nat.zero_add]) htables m₁
  obtain ⟨m₂, ht⟩ := hall NPDENTRIES le_rfl
  rw [freevm_eq hd ht, hu.frame]
  exact kfree_total (hok _ (mem_frames.2 (Or.inl rfl))) m₂

theorem mapPage_total {w u : Bool} (hv : v < NPAGES) (hnone : d.lookup v = none) (f : Frame)
    (m : Kmem) :
    ∃ m' d' ok, mappages d (v * PGSIZE) PGSIZE (f * PGSIZE) w u m = .ok (m', d', ok) := by
  rcases h : mappages d (v * PGSIZE) PGSIZE (f * PGSIZE) w u m with s | ⟨m', d', ok⟩
  · exact (mapPage_error hv hnone h).elim
  · exact ⟨m', d', ok, rfl⟩

/-- Mapping a page takes a frame for a page table that is not there, and nothing else. -/
theorem mapPage_card {m' : Kmem} {d' : Pgdir} {w u ok : Bool} {f : Frame} (hnone : d.lookup v = none)
    (h : mappages d (v * PGSIZE) PGSIZE (f * PGSIZE) w u m = .ok (m', d', ok)) :
    ((d.pde (v / NPTENTRIES)).isSome → ok = true ∧ m'.free.card = m.free.card) ∧
      (¬ (d.pde (v / NPTENTRIES)).isSome →
        (ok = false → m.free.card = 0) ∧ (ok = true → m.free.card = m'.free.card + 1)) := by
  rw [mappages_page, mapLoop] at h
  unfold walkpgdir at h
  rcases hp : d.pde (v / NPTENTRIES) with _ | tab
  · refine ⟨fun h => absurd h Bool.false_ne_true, fun _ => ?_⟩
    rw [hp, if_pos rfl] at h
    rcases hk : kalloc m with ⟨m₁, _ | g⟩
    · rw [hk] at h
      obtain ⟨rfl, -, rfl⟩ : m₁ = m' ∧ d = d' ∧ false = ok := by simpa using h
      refine ⟨fun _ => ?_, fun h => absurd h Bool.false_ne_true⟩
      rw [(kalloc_none hk).2, Multiset.card_zero]
    · rw [hk] at h
      obtain ⟨rfl, -, rfl⟩ : m₁.memset g 0 = m' ∧ _ ∧ true = ok := by
        simpa [mapLoop] using h
      refine ⟨fun h => absurd h.symm Bool.false_ne_true, fun _ => ?_⟩
      rw [Kmem.memset_free, kalloc_some hk, Multiset.card_add, Multiset.card_singleton, Nat.add_comm]
  · refine ⟨fun _ => ?_, fun h => absurd rfl h⟩
    rw [hp] at h
    have hpte : tab.pte (v % NPTENTRIES) = none := by rwa [Pgdir.lookup_of_pde hp] at hnone
    dsimp only at h
    rw [hpte, Option.isSome_none, if_neg Bool.false_ne_true, mapLoop] at h
    obtain ⟨rfl, -, rfl⟩ : m = m' ∧ _ ∧ true = ok := by simpa using h
    exact ⟨rfl, rfl⟩

theorem kalloc_enough (h : 1 ≤ m.free.card) :
    ∃ m' f, kalloc m = (m', some f) ∧ m.free.card = m'.free.card + 1 := by
  rcases hk : kalloc m with ⟨m', _ | f⟩
  · rw [(kalloc_none hk).2, Multiset.card_zero] at h
    omega
  · refine ⟨m', f, rfl, ?_⟩
    rw [kalloc_some hk, Multiset.card_add, Multiset.card_singleton, Nat.add_comm]

theorem mapPage_enough {w u : Bool} (hv : v < NPAGES) (hnone : d.lookup v = none) (f : Frame)
    (h : 1 ≤ m.free.card) :
    ∃ m' d', mappages d (v * PGSIZE) PGSIZE (f * PGSIZE) w u m = .ok (m', d', true) ∧
      m.free.card ≤ m'.free.card + 1 := by
  obtain ⟨m', d', ok, hmap⟩ := mapPage_total (w := w) (u := u) hv hnone f m
  obtain ⟨hthere, hnew⟩ := mapPage_card hnone hmap
  by_cases hp : (d.pde (v / NPTENTRIES)).isSome
  · obtain ⟨rfl, hcard⟩ := hthere hp
    exact ⟨m', d', hmap, by omega⟩
  · cases ok with
    | false =>
      have := (hnew hp).1 rfl
      omega
    | true => exact ⟨m', d', hmap, ((hnew hp).2 rfl).le⟩

end Total

end OsPlayground
