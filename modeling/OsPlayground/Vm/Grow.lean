import OsPlayground.Vm.Contents

/-!
# Growing and shrinking a process

* `growproc`: as the code does it.
* `Memory`: user memory is the pages below `sz`.
* **`allocuvm_spec`**: new pages with zeros, or nothing.
* `GrowsExactly`: what `growproc` should do; **`growproc_iff`**: when it does.
-/

namespace OsPlayground

open Lib Finset

/-- `growproc`, with the size and the result. `allocuvm` and `deallocuvm` get `sz + n` as a
`uint`. -/
def growproc (d : Pgdir) (sz : ℕ) (n : BitVec 32) (m : Kmem) :
    Except Panic (Kmem × Pgdir × ℕ × ℤ) :=
  let newsz := (BitVec.ofNat 32 sz + n).toNat
  if 0 < n.toInt then
    match allocuvm d sz newsz m with
    | .error s => .error s
    | .ok (m, d, r) => .ok (if r = 0 then (m, d, sz, -1) else (m, d, r, 0))
  else if n.toInt < 0 then
    match deallocuvm d sz newsz m with
    | .error s => .error s
    | .ok (m, d, r) => .ok (if r = 0 then (m, d, sz, -1) else (m, d, r, 0))
  else .ok (m, d, sz, 0)

/-! ## User memory -/

namespace Valid

variable {m : Kmem} {d : Pgdir}

theorem frames_ok (h : Valid (m.free + d.frames)) : ∀ f ∈ d.frames, kfreeOk f :=
  fun f hf => h.ok f (Multiset.mem_add.2 (Or.inr hf))

theorem user_ok (h : Valid (m.free + d.frames)) : ∀ f ∈ d.user, kfreeOk f :=
  fun f hf => h.frames_ok f (mem_frames.2 (Or.inr (Or.inr hf)))

theorem not_free (h : Valid (m.free + d.frames)) {v : ℕ} {e : Pte} (hv : v < WINPAGE)
    (he : d.lookup v = some e) : e.frame ∉ m.free := by
  intro hf
  have hin : e.frame ∈ d.frames := mem_frames.2 (Or.inr (Or.inr (mem_user hv he)))
  exact not_mem_of_nodup h.nodup hf hin

end Valid

/-- The user memory of a process is the pages below `sz`, on frames of its own. -/
structure Memory (d : Pgdir) (sz : ℕ) (m : Kmem) : Prop where
  size : sz < WINPAGE * PGSIZE
  mapped : ∀ v < WINPAGE, (d.lookup v).isSome ↔ v * PGSIZE < sz
  valid : Valid (m.free + d.frames)

namespace Memory

variable {m m' : Kmem} {d d' : Pgdir} {sz v : ℕ} {e : Pte}

theorem unmapped (h : Memory d sz m) (hv : v < WINPAGE) (hsz : sz ≤ v * PGSIZE) :
    d.lookup v = none := by
  cases hl : d.lookup v with
  | none => rfl
  | some e =>
    have := (h.mapped v hv).1 (by rw [hl]; rfl)
    omega

theorem frames_ok (h : Memory d sz m) : ∀ f ∈ d.frames, kfreeOk f := h.valid.frames_ok

theorem user_ok (h : Memory d sz m) : ∀ f ∈ d.user, kfreeOk f := h.valid.user_ok

end Memory

/-! ## `allocuvm` -/

/-- Pages from `v` up to `newsz` were added, with zeros. -/
structure Extended (v newsz : ℕ) (m m' : Kmem) (d d' : Pgdir) : Prop where
  conserved : m'.free + d'.frames = m.free + d.frames
  taken : Taken m m'
  lookup : ∀ x, ¬ (v ≤ x ∧ x * PGSIZE < newsz) → d'.lookup x = d.lookup x
  fresh : ∀ x, v ≤ x → x * PGSIZE < newsz →
    ∃ f ∈ m.free, d'.lookup x = some ⟨f, true, true⟩ ∧ m'.mem f = fun _ => 0

/-- The pages from `b` up to `newsz` are gone, and frames that were not free before and are not now
have their bytes. -/
structure Undone (b newsz : ℕ) (m m' : Kmem) (d d' : Pgdir) : Prop where
  conserved : m'.free + d'.frames = m.free + d.frames
  frame : d'.frame = d.frame
  lookup : ∀ x, d'.lookup x = if b ≤ x ∧ x * PGSIZE < newsz then none else d.lookup x
  mem : ∀ f ∉ m.free, f ∉ m'.free → m'.mem f = m.mem f

section Alloc

variable {m m' : Kmem} {d d' : Pgdir} {oldsz newsz sz v n : ℕ}

theorem mapPage_taken {f : Frame} {w u ok : Bool}
    (h : mappages d (v * PGSIZE) PGSIZE (f * PGSIZE) w u m = .ok (m', d', ok)) : Taken m m' := by
  rw [mappages_page] at h
  exact mapLoop_taken h

/-- A page on a frame from `kalloc`. The bytes are written in `mw`, before the page is mapped. -/
theorem mapPage_new {m₁ mw m₂ : Kmem} {d₁ : Pgdir} {f : Frame} {w u : Bool}
    (hvalid : Valid (m.free + d.frames)) (hv : v < WINPAGE) (hk : kalloc m = (m₁, some f))
    (hw : Taken m mw) (hfree : mw.free = m₁.free)
    (hmap : mappages d (v * PGSIZE) PGSIZE (f * PGSIZE) w u mw = .ok (m₂, d₁, true)) :
    m₂.free + d₁.frames = m.free + d.frames ∧ Taken m m₂ ∧
      (∀ x, d₁.lookup x = if x = v then some ⟨f, w, u⟩ else d.lookup x) ∧
      f ∉ m₂.free ∧ m₂.mem f = mw.mem f := by
  have hm := kalloc_some hk
  have htaken := mapPage_taken hmap
  have hmapped := mapPage_owned hv hmap
  obtain ⟨-, -, hl⟩ := mapPage_spec (hv.trans winpage_lt) hmap
  have hf : f ∉ mw.free := by
    intro hf
    have hn : (m.free).Nodup := (Multiset.nodup_add.1 hvalid.nodup).1
    rw [hm, Multiset.singleton_add, Multiset.nodup_cons, ← hfree] at hn
    exact hn.1 hf
  refine ⟨?_, hw.trans htaken, fun x => ?_, fun h => hf (Multiset.mem_of_le htaken.le h),
    htaken.mem f hf⟩
  · rw [hmapped, if_pos rfl, hfree, hm]
    abel
  · simpa using hl x

theorem Extended.cons {m₁ m₂ : Kmem} {d₁ : Pgdir} {f : Frame} (hvalid : Valid (m.free + d.frames))
    (hv : v < WINPAGE) (hvn : v * PGSIZE < newsz) (hk : kalloc m = (m₁, some f))
    (hmap : mappages d (v * PGSIZE) PGSIZE (f * PGSIZE) true true (m₁.memset f 0) =
      .ok (m₂, d₁, true)) (h : Extended (v + 1) newsz m₂ m' d₁ d') :
    Extended v newsz m m' d d' := by
  have hzero : Taken m (m₁.memset f 0) := (kalloc_taken hk).write (mem_of_kalloc hk)
  obtain ⟨hcons, htaken, hl, hf, hmem⟩ := mapPage_new hvalid hv hk hzero rfl hmap
  refine ⟨h.conserved.trans hcons, htaken.trans h.taken, fun x hx => ?_, fun x h₁ h₂ => ?_⟩
  · rw [h.lookup x fun hx' => hx ⟨by omega, hx'.2⟩, hl, if_neg]
    rintro rfl
    exact hx ⟨le_rfl, hvn⟩
  · by_cases hxv : x = v
    · subst hxv
      refine ⟨f, mem_of_kalloc hk, ?_, ?_⟩
      · rw [h.lookup x fun hx' => by omega, hl, if_pos rfl]
      · rw [h.taken.mem f hf, hmem]
        exact Function.update_self _ _ _
    · obtain ⟨g, hg, hgl, hgm⟩ := h.fresh x (by omega) h₂
      exact ⟨g, Multiset.mem_of_le htaken.le hg, hgl, hgm⟩

theorem deallocuvm_undone (oldsz : ℕ) (hsz : newsz ≤ WINPAGE * PGSIZE)
    (hok : ∀ f ∈ d.user, kfreeOk f) (m : Kmem) :
    ∃ m' d' r, deallocuvm d newsz oldsz m = .ok (m', d', r) ∧ Freed m m' ∧
      Undone (pages oldsz) newsz m m' d d' := by
  obtain ⟨m', d', r, h⟩ := deallocuvm_total hsz hok oldsz m
  obtain ⟨hu, -, hl⟩ := deallocuvm_spec hsz h
  have hfreed := deallocuvm_freed h
  exact ⟨m', d', r, h, hfreed, hu.frames_eq, hu.frame, hl, fun f _ hf => hfreed.mem f hf⟩

/-- **The loop of `allocuvm`** adds all the pages, or removes those from `oldsz` on. -/
theorem allocLoop_spec (hsz : newsz < WINPAGE * PGSIZE) (hfuel : newsz ≤ (v + n) * PGSIZE)
    (hv : pages oldsz ≤ v) (hnone : ∀ x, v ≤ x → x * PGSIZE < newsz → d.lookup x = none)
    (hvalid : Valid (m.free + d.frames)) :
    (∃ m' d', allocLoop oldsz newsz n v d m = .ok (m', d', newsz) ∧
        Extended v newsz m m' d d') ∨
      ∃ m' d', allocLoop oldsz newsz n v d m = .ok (m', d', 0) ∧
        Undone (pages oldsz) newsz m m' d d' := by
  have hstop : newsz ≤ v * PGSIZE → Extended v newsz m m d d := fun hle =>
    ⟨rfl, .refl m, fun _ _ => rfl, fun x h₁ h₂ => (not_below hle ⟨h₁, h₂⟩).elim⟩
  induction n generalizing v d m with
  | zero => exact Or.inl ⟨m, d, rfl, hstop hfuel⟩
  | succ n ih =>
    unfold allocLoop
    by_cases hlt : v * PGSIZE < newsz
    swap
    · rw [if_neg hlt]
      exact Or.inl ⟨m, d, rfl, hstop (Nat.le_of_not_lt hlt)⟩
    rw [if_pos hlt]
    have hvw := lt_winpage hsz.le hlt
    rcases hk : kalloc m with ⟨m₁, _ | f⟩
    · -- no frame for the page
      right
      obtain ⟨rfl, -⟩ := kalloc_none hk
      obtain ⟨m', d', r, hd, -, hund⟩ := deallocuvm_undone oldsz hsz.le hvalid.user_ok m₁
      exact ⟨m', d', by dsimp only; rw [hd], hund⟩
    · have hfree := kalloc_some hk
      obtain ⟨m₂, d₁, ok, hmap⟩ := mapPage_total (w := true) (u := true) (hvw.trans winpage_lt)
        (hnone v le_rfl hlt) f (m₁.memset f 0)
      have hmapped := mapPage_owned hvw hmap
      obtain ⟨ht, -, hl⟩ := mapPage_spec (hvw.trans winpage_lt) hmap
      rw [Kmem.memset_free] at hmapped
      have htaken : Taken m m₂ := by
        have hzero : Taken m (m₁.memset f 0) := (kalloc_taken hk).write (mem_of_kalloc hk)
        exact hzero.trans (mapPage_taken hmap)
      dsimp only
      rw [hmap]
      cases ok with
      | false =>
        -- no frame for the page table
        right
        rw [if_neg Bool.false_ne_true, add_zero] at hmapped
        have hl' : ∀ x, d₁.lookup x = d.lookup x := fun x => by rw [hl, if_neg (by simp)]
        have hu : d₁.user = d.user := Pgdir.user_congr fun x _ => hl' x
        obtain ⟨m₃, d₂, r, hd, hfreed, hund⟩ := deallocuvm_undone (d := d₁) oldsz hsz.le
          (by rw [hu]; exact hvalid.user_ok) m₂
        have hfok : kfreeOk f := hvalid.ok f (Multiset.mem_add.2 (Or.inl (mem_of_kalloc hk)))
        obtain ⟨m₄, hkf⟩ := kfree_total hfok m₃
        have hfreed' := hfreed.trans (kfree_freed hkf)
        refine ⟨m₄, d₂, by dsimp only; rw [hd]; dsimp only; rw [hkf], ?_, ?_, fun x => ?_, ?_⟩
        · rw [(kfree_spec hkf).1, hfree, add_assoc, hund.conserved, hmapped, add_assoc]
        · rw [hund.frame, ht.frame]
        · rw [hund.lookup, hl']
        · intro g hg hg'
          rw [hfreed'.mem g hg', htaken.mem g hg]
      | true =>
        rw [if_pos rfl] at hmapped
        have hcons : m₂.free + d₁.frames = m.free + d.frames := by
          rw [hmapped, hfree]
          abel
        have hfuel' : newsz ≤ (v + 1 + n) * PGSIZE := by
          rwa [show v + 1 + n = v + (n + 1) by omega]
        have hnone' : ∀ x, v + 1 ≤ x → x * PGSIZE < newsz → d₁.lookup x = none := by
          intro x h₁ h₂
          rw [hl, if_neg (by rintro ⟨-, rfl⟩; omega)]
          exact hnone x (by omega) h₂
        have hnext := ih hfuel' (by omega) hnone' (by rwa [hcons]) fun hle =>
          ⟨rfl, .refl _, fun _ _ => rfl, fun x h₁ h₂ => (not_below hle ⟨h₁, h₂⟩).elim⟩
        rcases hnext with ⟨m', d', hloop, hext⟩ | ⟨m', d', hloop, hund⟩
        · exact Or.inl ⟨m', d', hloop, hext.cons hvalid hvw hlt hk hmap⟩
        · refine Or.inr ⟨m', d', hloop, by rw [hund.conserved, hcons], ?_, fun x => ?_, ?_⟩
          · rw [hund.frame, ht.frame]
          · rw [hund.lookup, hl]
            by_cases hx : pages oldsz ≤ x ∧ x * PGSIZE < newsz
            · rw [if_pos hx, if_pos hx]
            · rw [if_neg hx, if_neg hx, if_neg]
              rintro ⟨-, rfl⟩
              exact hx ⟨hv, hlt⟩
          · intro g hg hg'
            rw [hund.mem g (fun h => hg (Multiset.mem_of_le htaken.le h)) hg', htaken.mem g hg]

end Alloc

/-! ## `growproc` -/

/-- The memory of the process is `sz + n` bytes: what was there, then zeros. -/
structure MemoryGrown (d : Pgdir) (sz : ℕ) (n : ℤ) (m m' : Kmem) (d' : Pgdir) (sz' : ℕ) : Prop where
  size : (sz' : ℤ) = sz + n
  mapped : ∀ v < WINPAGE, (d'.lookup v).isSome ↔ v * PGSIZE < sz'
  old : ∀ v < WINPAGE, v * PGSIZE < sz → v * PGSIZE < sz' →
    ∃ e, d.lookup v = some e ∧ d'.lookup v = some e ∧ m'.mem e.frame = m.mem e.frame
  fresh : ∀ v < WINPAGE, sz ≤ v * PGSIZE → v * PGSIZE < sz' →
    ∃ e, d'.lookup v = some e ∧ m'.mem e.frame = fun _ => 0

/-- The memory of the process is what it was, and frames left the free list for page tables only. -/
structure MemoryKept (d : Pgdir) (sz : ℕ) (m m' : Kmem) (d' : Pgdir) (sz' : ℕ) : Prop where
  size : sz' = sz
  lookup : ∀ v < WINPAGE, d'.lookup v = d.lookup v
  mem : ∀ v < WINPAGE, ∀ e, d.lookup v = some e → m'.mem e.frame = m.mem e.frame
  free : m'.free + d'.tables = m.free + d.tables

/-- `growproc` returns 0 and grows the memory, or returns -1 and keeps it. -/
def GrowsExactly (d : Pgdir) (sz : ℕ) (n : BitVec 32) (m : Kmem) : Prop :=
  ∃ m' d' sz' r, growproc d sz n m = .ok (m', d', sz', r) ∧
    (r = 0 ∧ MemoryGrown d sz n.toInt m m' d' sz' ∨ r = -1 ∧ MemoryKept d sz m m' d' sz')

section Grow

variable {m m' : Kmem} {d d' : Pgdir} {sz newsz : ℕ} {n : BitVec 32}

theorem winpage_bytes : WINPAGE * PGSIZE = 2147442688 := by
  unfold WINPAGE
  decide

theorem MemoryKept.refl (d : Pgdir) (sz : ℕ) (m : Kmem) : MemoryKept d sz m m d sz :=
  ⟨rfl, fun _ _ => rfl, fun _ _ _ _ => rfl, rfl⟩

theorem Undone.memoryKept (h : Memory d sz m) (hu : Undone (pages sz) newsz m m' d d') :
    MemoryKept d sz m m' d' sz := by
  have hlookup : ∀ v < WINPAGE, d'.lookup v = d.lookup v := by
    intro v hv
    rw [hu.lookup]
    split_ifs with hin
    · refine (h.unmapped hv (Nat.le_of_not_lt fun hlt => ?_)).symm
      have := lt_pages.2 hlt
      omega
    · rfl
  have huser : d'.user = d.user := Pgdir.user_congr hlookup
  have hvalid' : Valid (m'.free + d'.frames) := hu.conserved ▸ h.valid
  refine ⟨rfl, hlookup, fun v hv e he => ?_, ?_⟩
  · exact hu.mem _ (h.valid.not_free hv he) (hvalid'.not_free hv ((hlookup v hv).trans he))
  · have hc := hu.conserved
    rw [Pgdir.frames, Pgdir.frames, hu.frame, huser] at hc
    have hshape : ∀ a b : Multiset Frame, a + ({d.frame} + b + d.user) =
        a + b + ({d.frame} + d.user) := fun a b => by abel
    rw [hshape, hshape] at hc
    exact add_right_cancel hc

theorem Extended.memoryGrown (h : Memory d sz m) (hsz : sz ≤ newsz)
    (hn : (newsz : ℤ) = sz + n.toInt) (he : Extended (pages sz) newsz m m' d d') :
    MemoryGrown d sz n.toInt m m' d' newsz := by
  have hpages : ∀ v, pages sz ≤ v ↔ sz ≤ v * PGSIZE := fun v => by
    rw [← Nat.not_lt, lt_pages, Nat.not_lt]
  refine ⟨hn, fun v hv => ?_, fun v hv h₁ h₂ => ?_, fun v hv h₁ h₂ => ?_⟩
  · by_cases hin : pages sz ≤ v ∧ v * PGSIZE < newsz
    · obtain ⟨f, -, hf, -⟩ := he.fresh v hin.1 hin.2
      rw [hf]
      exact iff_of_true rfl hin.2
    · rw [he.lookup v hin, h.mapped v hv]
      rw [hpages] at hin
      omega
  · obtain ⟨e, hl⟩ := Option.isSome_iff_exists.1 ((h.mapped v hv).2 h₁)
    have hout : ¬ (pages sz ≤ v ∧ v * PGSIZE < newsz) := by
      rw [hpages]
      omega
    exact ⟨e, hl, (he.lookup v hout).trans hl, he.taken.mem _ (h.valid.not_free hv hl)⟩
  · obtain ⟨f, -, hf, hm⟩ := he.fresh v ((hpages v).2 h₁) h₂
    exact ⟨_, hf, hm⟩

/-- With two frames for each round, the loop of `allocuvm` adds all the pages. -/
theorem allocLoop_enough {n v oldsz : ℕ} (hsz : newsz < WINPAGE * PGSIZE)
    (hnone : ∀ x, v ≤ x → x * PGSIZE < newsz → d.lookup x = none) (hcard : 2 * n ≤ m.free.card) :
    ∃ m' d', allocLoop oldsz newsz n v d m = .ok (m', d', newsz) ∧
      m.free.card ≤ m'.free.card + 2 * n := by
  induction n generalizing v d m with
  | zero => exact ⟨m, d, rfl, Nat.le_add_right _ _⟩
  | succ n ih =>
    unfold allocLoop
    by_cases hlt : v * PGSIZE < newsz
    swap
    · exact ⟨m, d, if_neg hlt, Nat.le_add_right _ _⟩
    have hv := lt_winpage hsz.le hlt
    obtain ⟨m₁, f, hk, hcard₁⟩ := kalloc_enough (m := m) (by omega)
    obtain ⟨m₂, d₂, hmap, hcard₂⟩ := mapPage_enough (w := true) (u := true) (hv.trans winpage_lt)
      (hnone v le_rfl hlt) f (m := m₁.memset f 0) (by rw [Kmem.memset_free]; omega)
    rw [Kmem.memset_free] at hcard₂
    obtain ⟨-, -, hl⟩ := mapPage_spec (hv.trans winpage_lt) hmap
    rw [if_pos hlt, hk]
    dsimp only
    rw [hmap]
    have hnone₂ : ∀ x, v + 1 ≤ x → x * PGSIZE < newsz → d₂.lookup x = none := fun x h₁ h₂ => by
      rw [hl, if_neg (by omega)]
      exact hnone x (by omega) h₂
    obtain ⟨m', d', hloop, hcard'⟩ := ih hnone₂ (m := m₂) (by omega)
    exact ⟨m', d', hloop, by omega⟩

theorem allocuvm_enough (hle : sz ≤ newsz) (hsz : newsz < WINPAGE * PGSIZE)
    (hnone : ∀ x, pages sz ≤ x → x * PGSIZE < newsz → d.lookup x = none)
    (hvalid : Valid (m.free + d.frames)) (hcard : 2 * (newsz / PGSIZE + 1) ≤ m.free.card)
    (hpos : newsz ≠ 0) : ∃ m' d', allocuvm d sz newsz m = .ok (m', d', newsz) ∧
      Extended (pages sz) newsz m m' d d' ∧
      m.free.card ≤ m'.free.card + 2 * (newsz / PGSIZE + 1) := by
  unfold allocuvm
  rw [if_neg (Nat.not_le.2 hsz), if_neg hle.not_gt]
  obtain ⟨m', d', hloop, hcard'⟩ : ∃ m' d', allocLoop sz newsz (newsz / PGSIZE + 1) (pages sz) d m =
      .ok (m', d', newsz) ∧ m.free.card ≤ m'.free.card + 2 * (newsz / PGSIZE + 1) :=
    allocLoop_enough hsz hnone hcard
  rcases allocLoop_spec hsz (le_fuel (pages sz) newsz (by decide)) le_rfl hnone hvalid with
    ⟨m₁, d₁, hl, hext⟩ | ⟨m₁, d₁, hl, -⟩
  · obtain ⟨rfl, rfl, -⟩ : m' = m₁ ∧ d' = d₁ ∧ True := by simpa using hloop.symm.trans hl
    exact ⟨m', d', hloop, hext, hcard'⟩
  · have heq := Except.ok.inj (hloop.symm.trans hl)
    exact absurd (Prod.mk.inj (Prod.mk.inj heq).2).2 hpos

/-- **`allocuvm`** to a size that is not smaller. -/
theorem allocuvm_spec (h : Memory d sz m) (hsz : sz ≤ newsz) :
    (∃ m' d', allocuvm d sz newsz m = .ok (m', d', newsz) ∧ Extended (pages sz) newsz m m' d d') ∨
      ∃ m' d', allocuvm d sz newsz m = .ok (m', d', 0) ∧ MemoryKept d sz m m' d' sz := by
  unfold allocuvm
  by_cases hbig : WINPAGE * PGSIZE ≤ newsz
  · rw [if_pos hbig]
    exact Or.inr ⟨m, d, rfl, .refl d sz m⟩
  · rw [if_neg hbig, if_neg (by omega)]
    have hlt : newsz < WINPAGE * PGSIZE := Nat.lt_of_not_le hbig
    have hnone : ∀ x, pages sz ≤ x → x * PGSIZE < newsz → d.lookup x = none := by
      intro x h₁ h₂
      refine h.unmapped (lt_winpage hlt.le h₂) (Nat.le_of_not_lt fun hx => ?_)
      have := lt_pages.2 hx
      omega
    refine (allocLoop_spec hlt (le_fuel _ _ (by decide)) le_rfl hnone h.valid).imp_right ?_
    rintro ⟨m', d', hloop, hu⟩
    exact ⟨m', d', hloop, hu.memoryKept h⟩

theorem deallocuvm_memoryGrown (h : Memory d sz m) (hlt : newsz < sz)
    (hn : (newsz : ℤ) = sz + n.toInt) :
    ∃ m' d', deallocuvm d sz newsz m = .ok (m', d', newsz) ∧
      MemoryGrown d sz n.toInt m m' d' newsz := by
  obtain ⟨m', d', r, hd⟩ := deallocuvm_total h.size.le h.user_ok newsz m
  obtain ⟨hu, hr, hl⟩ := deallocuvm_spec h.size.le hd
  have hfreed := deallocuvm_freed hd
  have hvalid' : Valid (m'.free + d'.frames) := hu.frames_eq ▸ h.valid
  have hkeep : ∀ v, v * PGSIZE < newsz → d'.lookup v = d.lookup v := by
    intro v hv
    rw [hl, if_neg]
    rintro ⟨h₁, -⟩
    have := lt_pages.2 hv
    omega
  rw [min_eq_right hlt.le] at hr
  subst hr
  refine ⟨m', d', hd, hn, fun v hv => ?_, fun v hv h₁ h₂ => ?_, fun v hv h₁ h₂ => by omega⟩
  · by_cases hlow : v * PGSIZE < r
    · rw [hkeep v hlow, h.mapped v hv]
      omega
    · have hp : pages r ≤ v := Nat.le_of_not_lt fun hlt => hlow (lt_pages.1 hlt)
      rw [hl]
      split_ifs with hin
      · exact iff_of_false (by simp) hlow
      · rw [h.mapped v hv]
        omega
  · obtain ⟨e, he⟩ := Option.isSome_iff_exists.1 ((h.mapped v hv).2 h₁)
    have he' : d'.lookup v = some e := (hkeep v h₂).trans he
    exact ⟨e, he, he', hfreed.mem _ (hvalid'.not_free hv he')⟩

theorem newsz_eq (n : BitVec 32) {sz : ℕ} (hsz : sz < 2147483648) :
    ((BitVec.ofNat 32 sz + n).toNat : ℤ) =
      if 0 ≤ sz + n.toInt then sz + n.toInt else sz + n.toInt + 4294967296 := by
  have hlt := n.isLt
  have hnat : (BitVec.ofNat 32 sz + n).toNat = (sz + n.toNat) % 4294967296 := by
    rw [BitVec.toNat_add, BitVec.toNat_ofNat]
    omega
  rw [hnat, BitVec.toInt_eq_toNat_cond]
  split_ifs <;> omega

theorem growsExactly_of_pos (h : Memory d sz m) (hn : 0 < n.toInt) : GrowsExactly d sz n m := by
  have hsize := h.size
  rw [winpage_bytes] at hsize
  have hnew := newsz_eq n (show sz < 2147483648 by omega)
  rw [if_pos (by omega)] at hnew
  have hle : sz ≤ (BitVec.ofNat 32 sz + n).toNat := by omega
  unfold GrowsExactly growproc
  dsimp only
  rw [if_pos hn]
  rcases allocuvm_spec h hle with ⟨m', d', ha, he⟩ | ⟨m', d', ha, hk⟩
  · rw [ha]
    dsimp only
    rw [if_neg (by omega)]
    exact ⟨m', d', _, 0, rfl, Or.inl ⟨rfl, he.memoryGrown h hle hnew⟩⟩
  · rw [ha]
    dsimp only
    rw [if_pos rfl]
    exact ⟨m', d', sz, -1, rfl, Or.inr ⟨rfl, hk⟩⟩

theorem growsExactly_zero (h : Memory d sz m) (hn : n.toInt = 0) : GrowsExactly d sz n m := by
  unfold GrowsExactly growproc
  dsimp only
  rw [if_neg (by omega), if_neg (by omega)]
  refine ⟨m, d, sz, 0, rfl, Or.inl ⟨rfl, by omega, h.mapped, fun v hv h₁ _ => ?_,
    fun v hv h₁ h₂ => by omega⟩⟩
  obtain ⟨e, he⟩ := Option.isSome_iff_exists.1 ((h.mapped v hv).2 h₁)
  exact ⟨e, he, he, rfl⟩

/-- Shrinking: the size 0 is taken for an error, and below it the size wraps around. -/
theorem growsExactly_of_neg (h : Memory d sz m) (hn : n.toInt < 0) :
    GrowsExactly d sz n m ↔ sz = 0 ∨ 0 < sz + n.toInt := by
  have hsize := h.size
  rw [winpage_bytes] at hsize
  have hlow : -2147483648 ≤ n.toInt := BitVec.le_toInt n
  have hnew := newsz_eq n (show sz < 2147483648 by omega)
  unfold GrowsExactly growproc
  dsimp only
  rw [if_neg (by omega), if_pos hn]
  by_cases hin : 0 ≤ sz + n.toInt
  · -- `newsz` is below `sz`
    rw [if_pos hin] at hnew
    obtain ⟨m', d', hd, hg⟩ := deallocuvm_memoryGrown h (by omega) hnew
    rw [hd]
    dsimp only
    by_cases hzero : (BitVec.ofNat 32 sz + n).toNat = 0
    · rw [if_pos hzero]
      refine iff_of_false ?_ (by omega)
      rintro ⟨m₁, d₁, sz₁, r, hr, hor⟩
      obtain ⟨rfl, rfl, rfl, rfl⟩ : m' = m₁ ∧ d' = d₁ ∧ sz = sz₁ ∧ (-1 : ℤ) = r := by
        simpa using hr
      have hk := (hor.resolve_left fun h => by omega).2
      have hpos : 0 < WINPAGE := by
        unfold WINPAGE
        decide
      have hfirst : 0 * PGSIZE < sz := by
        rw [Nat.zero_mul]
        omega
      have hold := (h.mapped 0 hpos).2 hfirst
      have hgone := (hg.mapped 0 hpos).1 (by rw [hk.lookup 0 hpos]; exact hold)
      rw [hzero] at hgone
      exact absurd hgone (Nat.not_lt_zero _)
    · rw [if_neg hzero]
      exact iff_of_true ⟨m', d', _, 0, rfl, Or.inl ⟨rfl, hg⟩⟩ (Or.inr (by omega))
  · -- `newsz` wraps around
    rw [if_neg hin] at hnew
    have hkeep : deallocuvm d sz (BitVec.ofNat 32 sz + n).toNat m = .ok (m, d, sz) := by
      rw [deallocuvm, if_pos (by omega)]
    rw [hkeep]
    dsimp only
    by_cases hzero : sz = 0
    · rw [if_pos hzero]
      exact iff_of_true ⟨m, d, sz, -1, rfl, Or.inr ⟨rfl, .refl d sz m⟩⟩ (Or.inl hzero)
    · rw [if_neg hzero]
      refine iff_of_false ?_ (by omega)
      rintro ⟨m₁, d₁, sz₁, r, hr, hor⟩
      obtain ⟨rfl, rfl, rfl, rfl⟩ : m = m₁ ∧ d = d₁ ∧ sz = sz₁ ∧ (0 : ℤ) = r := by
        simpa using hr
      have hsz := (hor.resolve_right fun h => by omega).2.size
      omega

/-- **`growproc`** is exact or has no effect if and only if it does not shrink the memory to nothing or
by more than there is. -/
theorem growproc_iff (h : Memory d sz m) (n : BitVec 32) :
    GrowsExactly d sz n m ↔ 0 ≤ n.toInt ∨ sz = 0 ∨ 0 < sz + n.toInt := by
  rcases lt_trichotomy n.toInt 0 with hn | hn | hn
  · rw [growsExactly_of_neg h hn]
    omega
  · exact iff_of_true (growsExactly_zero h hn) (Or.inl hn.ge)
  · exact iff_of_true (growsExactly_of_pos h hn) (Or.inl hn.le)

end Grow

/-! ## A process with one page -/

/-- One page table with one page. -/
def onePage : Pgdir :=
  ((⟨300, fun _ => none⟩ : Pgdir).setPde 0 ⟨301, fun _ => none⟩).setPte 0 ⟨301, fun _ => none⟩
    (some ⟨302, true, true⟩)

theorem onePage_lookup (x : ℕ) :
    onePage.lookup x = if x = 0 then some ⟨302, true, true⟩ else none := by
  have hp : ((⟨300, fun _ => none⟩ : Pgdir).setPde 0 ⟨301, fun _ => none⟩).pde (0 / NPTENTRIES) =
      some ⟨301, fun _ => none⟩ := by simp [Pgdir.setPde]
  rw [onePage, Pgdir.lookup_setPte hp, Pgdir.lookup_setPde rfl]
  rfl

theorem onePage_frames : onePage.frames = {300} + {301} + {302} := by
  have hp : ((⟨300, fun _ => none⟩ : Pgdir).setPde 0 ⟨301, fun _ => none⟩).pde (0 / NPTENTRIES) =
      some ⟨301, fun _ => none⟩ := by simp [Pgdir.setPde]
  have hnew : (⟨300, fun _ => none⟩ : Pgdir).tables = 0 := by
    unfold Pgdir.tables
    exact Finset.sum_eq_zero fun _ _ => rfl
  have htables : onePage.tables = {301} := by
    rw [onePage, Pgdir.tables_setPte hp, Pgdir.tables_setPde (by decide) rfl, hnew, zero_add]
  have hpos : 0 < WINPAGE := by
    unfold WINPAGE
    decide
  have hchange := Pgdir.user_change (d := ⟨300, fun _ => none⟩) (b := onePage) hpos
    fun x _ hx => by rw [onePage_lookup, if_neg hx]; rfl
  have huser : (⟨300, fun _ => none⟩ : Pgdir).user = 0 := Finset.sum_eq_zero fun _ _ => rfl
  rw [huser, onePage_lookup, if_pos rfl, entry_some, zero_add] at hchange
  have hnone : (⟨300, fun _ => none⟩ : Pgdir).lookup 0 = none := rfl
  rw [hnone, entry_none, add_zero] at hchange
  rw [Pgdir.frames, htables, hchange]
  rfl

theorem onePage_memory (b : Frame → ℕ → ℕ) : Memory onePage 4096 ⟨[], b⟩ where
  size := by
    rw [winpage_bytes]
    decide
  mapped v _ := by
    rw [onePage_lookup]
    split_ifs with hv
    · subst hv
      exact iff_of_true rfl (by decide)
    · refine iff_of_false (by simp) ?_
      have : PGSIZE = 4096 := rfl
      rw [this]
      omega
  valid := by
    have hfree : (⟨[], b⟩ : Kmem).free = 0 := rfl
    rw [onePage_frames, hfree, zero_add]
    refine ⟨by decide, fun f hf => ?_⟩
    have hcases : f = 300 ∨ f = 301 ∨ f = 302 := by simpa [or_assoc] using hf
    rcases hcases with rfl | rfl | rfl <;> decide

/-- With free frames behind those of the directory. -/
theorem onePage_room {l : List ℕ} (hl : l.Nodup) (hge : ∀ f ∈ l, 400 ≤ f ∧ f < 500)
    (b : Frame → ℕ → ℕ) : Memory onePage 4096 ⟨l, b⟩ := by
  have hone := onePage_memory b
  have hpages : ∀ f : ℕ, f ∈ onePage.frames → f < 400 := by
    intro f hf
    rw [onePage_frames] at hf
    have hcases : f = 300 ∨ f = 301 ∨ f = 302 := by simpa [or_assoc] using hf
    omega
  refine ⟨hone.size, hone.mapped, Multiset.nodup_add.2 ⟨Multiset.coe_nodup.2 hl, ?_, ?_⟩,
    fun f : ℕ => fun hf => ?_⟩
  · exact (Multiset.nodup_add.1 hone.valid.nodup).2.1
  · refine Multiset.disjoint_left.2 fun {f : ℕ} hf hf' => ?_
    have := hge _ (Multiset.mem_coe.1 hf)
    have := hpages _ hf'
    omega
  · rcases Multiset.mem_add.1 hf with hf | hf
    · have := hge f (Multiset.mem_coe.1 hf)
      constructor
      · simp only [kernelEnd, KERNBASE, PGSIZE]
        omega
      · show f * 4096 < 234881024
        omega
    · exact hone.frames_ok f hf

/-- One byte more. -/
theorem growproc_iff_one : GrowsExactly onePage 4096 1 ⟨[], fun _ _ => 0⟩ ↔
    0 ≤ (1 : BitVec 32).toInt ∨ 4096 = 0 ∨ 0 < ((4096 : ℕ) : ℤ) + (1 : BitVec 32).toInt :=
  growproc_iff (onePage_memory _) 1

/-- All the memory is given back. -/
theorem not_growsExactly : ¬ ∀ (d : Pgdir) (sz : ℕ) (n : BitVec 32) (m : Kmem), Memory d sz m →
    GrowsExactly d sz n m := by
  intro h
  have hneg := (growsExactly_of_neg (onePage_memory fun _ _ => 0)
    (n := BitVec.ofInt 32 (-4096)) (by decide)).1 (h _ _ _ _ (onePage_memory _))
  exact absurd hneg (by decide)

end OsPlayground
