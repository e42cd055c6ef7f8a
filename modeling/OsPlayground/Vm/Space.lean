import OsPlayground.Vm.Exec
import OsPlayground.Vm.Fork

/-!
# Address spaces

What the calls of one process do to the memory of all, whatever the others own and however often
`kalloc` fails.

* `Exchange m m' X X'`: the owner of the frames `X` has traded with the free list and now owns `X'`.
  Frames may be lost, none is won from another owner, and no frame of another owner is written.
* `Space`: an address space, whose user pages are below its size.
* `freevm_exchange`, `copyuvm_exchange`, `growproc_exchange`, `exec_exchange`, ...: one lemma for each
  function that a process calls.
-/

namespace OsPlayground

open Lib Finset

/-! ## Trading with the free list -/

/-- The owner of the frames `X` owns `X'` afterwards. -/
structure Exchange (m m' : Kmem) (X X' : Multiset Frame) : Prop where
  le : m'.free + X' ≤ m.free + X
  mem : ∀ f ∉ m.free + X, m'.mem f = m.mem f

section Exchange

variable {m m' m'' : Kmem} {d d' : Pgdir} {X X' X'' Y : Multiset Frame} {f : Frame} {sz newsz r v : ℕ}

theorem Exchange.refl (m : Kmem) (X : Multiset Frame) : Exchange m m X X := ⟨le_rfl, fun _ _ => rfl⟩

theorem Exchange.trans (h : Exchange m m' X X') (h' : Exchange m' m'' X' X'') :
    Exchange m m'' X X'' where
  le := h'.le.trans h.le
  mem f hf := (h'.mem f fun hm => hf (Multiset.mem_of_le h.le hm)).trans (h.mem f hf)

theorem Exchange.frame (h : Exchange m m' X X') (Y : Multiset Frame) :
    Exchange m m' (X + Y) (X' + Y) where
  le := by
    rw [← add_assoc, ← add_assoc]
    exact add_le_add_left h.le Y
  mem f hf := h.mem f fun hm => hf (by
    rw [← add_assoc]
    exact Multiset.mem_add.2 (Or.inl hm))

theorem Exchange.of_taken (h : Taken m m') (hfree : m'.free + X' = m.free + X) :
    Exchange m m' X X' :=
  ⟨hfree.le, fun f hf => h.mem f fun hm => hf (Multiset.mem_add.2 (Or.inl hm))⟩

theorem Exchange.of_freed (h : Freed m m') (hfree : m'.free + X' = m.free + X) :
    Exchange m m' X X' :=
  ⟨hfree.le, fun f hf => h.mem f fun hm => hf (hfree ▸ Multiset.mem_add.2 (Or.inl hm))⟩

theorem Exchange.valid (h : Exchange m m' X X') (hv : Valid (m.free + X)) : Valid (m'.free + X') :=
  hv.mono h.le

theorem Exchange.drop (h : Exchange m m' X X') (hle : X'' ≤ X') : Exchange m m' X X'' :=
  ⟨(add_le_add_right hle _).trans h.le, h.mem⟩

theorem kalloc_exchange (h : kalloc m = (m', some f)) : Exchange m m' 0 {f} :=
  .of_taken (kalloc_taken h) (by rw [kalloc_some h, add_zero, add_comm])

theorem kfree_exchange (h : kfree f m = .ok m') : Exchange m m' {f} 0 :=
  .of_freed (kfree_freed h) (by rw [(kfree_spec h).1, add_zero, add_comm])

theorem freevm_exchange (h : freevm d m = .ok m') : Exchange m m' d.frames 0 :=
  .of_freed (freevm_freed h) (by rw [freevm_spec h, add_zero])

theorem deallocuvm_exchange (hsz : sz ≤ WINPAGE * PGSIZE)
    (h : deallocuvm d sz newsz m = .ok (m', d', r)) : Exchange m m' d.frames d'.frames :=
  .of_freed (deallocuvm_freed h) (deallocuvm_spec hsz h).1.frames_eq

theorem write_exchange (hf : f ∈ X) (off n : ℕ) (p : ℕ → ℕ) :
    Exchange m (m.write f off n p) X X := by
  refine ⟨le_rfl, fun g hg => Function.update_of_ne ?_ _ _⟩
  rintro rfl
  exact hg (Multiset.mem_add.2 (Or.inr hf))

theorem Spare.exchange (h : Spare m m' d) : Exchange m m' 0 d.frames := by
  refine ⟨by rw [h.free, add_zero], fun f hf => h.mem f ?_⟩
  rwa [add_zero] at hf

end Exchange

/-! ## Address spaces -/

/-- The user pages of `d` are below `sz`; the pages above the window's first are not for the user. -/
structure Space (d : Pgdir) (sz : ℕ) : Prop where
  size : sz < WINPAGE * PGSIZE
  below : ∀ v < WINPAGE, (d.lookup v).isSome → v * PGSIZE < sz
  kernel : ∀ v e, WINPAGE ≤ v → d.lookup v = some e → e.u = false

/-- Every page below `sz` is there. -/
def Whole (d : Pgdir) (sz : ℕ) : Prop := ∀ v, v * PGSIZE < sz → (d.lookup v).isSome

section Space

variable {m m' : Kmem} {d d' pgdir : Pgdir} {sz newsz v n : ℕ} {f : Frame}

theorem Space.unmapped (h : Space d sz) (hv : v < WINPAGE) (hsz : sz ≤ v * PGSIZE) :
    d.lookup v = none := by
  by_contra hne
  have := h.below v hv (Option.ne_none_iff_isSome.1 hne)
  omega

theorem Space.fresh (h : Space d sz) (hnew : newsz < WINPAGE * PGSIZE) :
    ∀ x, pages sz ≤ x → x * PGSIZE < newsz → d.lookup x = none := by
  intro x hx hxn
  refine h.unmapped (lt_winpage hnew.le hxn) (Nat.le_of_not_lt fun hlt => ?_)
  exact absurd (lt_pages.2 hlt) hx.not_gt

/-! ## `growproc` -/

theorem Extended.space (h : Space d sz) (hle : sz ≤ newsz) (hnew : newsz < WINPAGE * PGSIZE)
    (hx : Extended (pages sz) newsz m m' d d') : Space d' newsz where
  size := hnew
  below v hv hs := by
    by_contra hge
    rw [hx.lookup v fun hin => hge hin.2] at hs
    exact hge ((h.below v hv hs).trans_le hle)
  kernel v e hv he := by
    rw [hx.lookup v fun hin => (lt_winpage hnew.le hin.2).not_ge hv] at he
    exact h.kernel v e hv he

theorem Extended.whole (hw : Whole d sz) (hx : Extended (pages sz) newsz m m' d d') :
    Whole d' newsz := by
  intro v hv
  by_cases hin : pages sz ≤ v ∧ v * PGSIZE < newsz
  · obtain ⟨f, -, hl, -⟩ := hx.fresh v hin.1 hin.2
    rw [hl]
    rfl
  · rw [hx.lookup v hin]
    exact hw v (lt_pages.1 (Nat.lt_of_not_le fun hle => hin ⟨hle, hv⟩))

theorem Undone.space (h : Space d sz) (hu : Undone (pages sz) newsz m m' d d') : Space d' sz where
  size := h.size
  below v hv hs := by
    rw [hu.lookup] at hs
    split_ifs at hs
    · cases hs
    · exact h.below v hv hs
  kernel v e hv he := by
    rw [hu.lookup] at he
    split_ifs at he
    exact h.kernel v e hv he

theorem Undone.whole (hw : Whole d sz) (hu : Undone (pages sz) newsz m m' d d') : Whole d' sz := by
  intro v hv
  rw [hu.lookup, if_neg]
  · exact hw v hv
  · rintro ⟨hle, -⟩
    exact (lt_pages.2 hv).not_ge hle

theorem Undone.exchange (hu : Undone v newsz m m' d d') : Exchange m m' d.frames d'.frames := by
  refine ⟨hu.conserved.le, fun f hf => hu.mem f ?_ ?_⟩
  · exact fun hm => hf (Multiset.mem_add.2 (Or.inl hm))
  · exact fun hm => hf (hu.conserved ▸ Multiset.mem_add.2 (Or.inl hm))

/-- **`allocuvm`** of a process, which may have holes. -/
theorem allocuvm_exchange (h : Space d sz) (hv : Valid (m.free + d.frames)) (hle : sz ≤ newsz) :
    ∃ m' d' r, allocuvm d sz newsz m = .ok (m', d', r) ∧ Exchange m m' d.frames d'.frames ∧
      (r = 0 ∧ Space d' sz ∧ (Whole d sz → Whole d' sz) ∨
        r = newsz ∧ Space d' newsz ∧ (Whole d sz → Whole d' newsz)) := by
  unfold allocuvm
  by_cases hbig : WINPAGE * PGSIZE ≤ newsz
  · rw [if_pos hbig]
    exact ⟨m, d, 0, rfl, .refl m _, Or.inl ⟨rfl, h, id⟩⟩
  have hnew : newsz < WINPAGE * PGSIZE := Nat.lt_of_not_le hbig
  rw [if_neg hbig, if_neg hle.not_gt]
  rcases allocLoop_spec hnew (le_fuel _ _ (by decide)) le_rfl (h.fresh hnew) hv with
    ⟨m', d', hloop, hx⟩ | ⟨m', d', hloop, hu⟩
  · exact ⟨m', d', newsz, hloop, .of_taken hx.taken hx.conserved,
      Or.inr ⟨rfl, hx.space h hle hnew, hx.whole⟩⟩
  · exact ⟨m', d', 0, hloop, hu.exchange, Or.inl ⟨rfl, hu.space h, hu.whole⟩⟩

/-- **`deallocuvm`** to a size that is smaller. -/
theorem deallocuvm_space (h : Space d sz) (hv : Valid (m.free + d.frames)) (hlt : newsz < sz) :
    ∃ m' d', deallocuvm d sz newsz m = .ok (m', d', newsz) ∧ Exchange m m' d.frames d'.frames ∧
      Space d' newsz ∧ (Whole d sz → Whole d' newsz) := by
  obtain ⟨m', d', r, hd⟩ := deallocuvm_total h.size.le hv.user_ok newsz m
  obtain ⟨-, hr, hl⟩ := deallocuvm_spec h.size.le hd
  rw [min_eq_right hlt.le] at hr
  subst hr
  refine ⟨m', d', hd, deallocuvm_exchange h.size.le hd, ⟨hlt.trans h.size, fun v hv hs => ?_,
    fun v e hv he => ?_⟩, fun hw v hv => ?_⟩
  · rw [hl] at hs
    split_ifs at hs with hin
    · cases hs
    · have hvsz := h.below v hv hs
      exact lt_pages.1 (Nat.lt_of_not_le fun hle => hin ⟨hle, hvsz⟩)
  · rw [hl] at he
    split_ifs at he
    exact h.kernel v e hv he
  · rw [hl, if_neg fun hin => (lt_pages.2 hv).not_ge hin.1]
    exact hw v (hv.trans hlt)

/-- **`growproc`** trades with the free list only. If all pages were there, they are, unless `n` takes
away all of them: then the pages are gone and the size is kept. -/
theorem growproc_exchange (h : Space d sz) (hv : Valid (m.free + d.frames)) (n : BitVec 32) :
    ∃ m' d' sz' r, growproc d sz n m = .ok (m', d', sz', r) ∧
      Exchange m m' d.frames d'.frames ∧ Space d' sz' ∧
      (Whole d sz → (Whole d' sz' ↔ sz = 0 ∨ sz + n.toInt ≠ 0)) := by
  have hsize := h.size
  rw [winpage_bytes] at hsize
  have hnew := newsz_eq n (show sz < 2147483648 by omega)
  have hlow : -2147483648 ≤ n.toInt := BitVec.le_toInt n
  unfold growproc
  dsimp only
  rcases lt_trichotomy 0 n.toInt with hn | hn | hn
  · -- more
    rw [if_pos hn]
    rw [if_pos (by omega)] at hnew
    have hle : sz ≤ (BitVec.ofNat 32 sz + n).toNat := by omega
    obtain ⟨m', d', r, ha, hex, hr⟩ := allocuvm_exchange h hv hle
    rw [ha]
    dsimp only
    rcases hr with ⟨rfl, hs, hw⟩ | ⟨rfl, hs, hw⟩
    · rw [if_pos rfl]
      exact ⟨m', d', sz, -1, rfl, hex, hs, fun h => iff_of_true (hw h) (by omega)⟩
    · rw [if_neg (by omega)]
      exact ⟨m', d', _, 0, rfl, hex, hs, fun h => iff_of_true (hw h) (by omega)⟩
  · rw [if_neg (by omega), if_neg (by omega)]
    exact ⟨m, d, sz, 0, rfl, .refl m _, h, fun hw => iff_of_true hw (by omega)⟩
  rw [if_neg (by omega), if_pos hn]
  by_cases hin : 0 ≤ sz + n.toInt
  · -- less
    rw [if_pos hin] at hnew
    have hlt : (BitVec.ofNat 32 sz + n).toNat < sz := by omega
    obtain ⟨m', d', hd, hex, hs, hw⟩ := deallocuvm_space h hv hlt
    rw [hd]
    dsimp only
    by_cases hzero : (BitVec.ofNat 32 sz + n).toNat = 0
    · -- nothing is left, and the size is what it was
      rw [if_pos hzero]
      rw [hzero] at hs hw
      have hpos : 0 < WINPAGE := by
        unfold WINPAGE
        decide
      have hgone : d'.lookup 0 = none := hs.unmapped hpos (Nat.zero_le _)
      refine ⟨m', d', sz, -1, rfl, hex, ⟨h.size, fun v hv hs' => ?_, hs.kernel⟩, fun _ =>
        iff_of_false (fun hw' => ?_) (by omega)⟩
      · exact absurd (hs.below v hv hs') (Nat.not_lt_zero _)
      · have hfirst := hw' 0 (by rw [Nat.zero_mul]; omega)
        rw [hgone] at hfirst
        cases hfirst
    · rw [if_neg hzero]
      exact ⟨m', d', _, 0, rfl, hex, hs, fun h => iff_of_true (hw h) (by omega)⟩
  · -- the size wraps around, and nothing happens
    rw [if_neg hin] at hnew
    have hkeep : deallocuvm d sz (BitVec.ofNat 32 sz + n).toNat m = .ok (m, d, sz) := by
      rw [deallocuvm, if_pos (by omega)]
    rw [hkeep]
    dsimp only
    by_cases hzero : sz = 0
    · rw [if_pos hzero]
      exact ⟨m, d, sz, -1, rfl, .refl m _, h, fun hw => iff_of_true hw (Or.inl hzero)⟩
    · rw [if_neg hzero]
      exact ⟨m, d, sz, 0, rfl, .refl m _, h, fun hw => iff_of_true hw (by omega)⟩

/-! ## `copyuvm` -/

theorem copyBad_exchange (hv : Valid (m.free + d.frames)) :
    ∃ m', copyBad d m = .ok (m', none) ∧ Exchange m m' d.frames 0 := by
  obtain ⟨m', hf⟩ := freevm_total hv.frames_ok m
  exact ⟨m', copyBad_eq hf, freevm_exchange hf⟩

/-- **The loop of `copyuvm`**, of pages that may be missing: then it panics. -/
theorem copyLoop_exchange (hsz : sz < WINPAGE * PGSIZE) (hfuel : sz ≤ (v + n) * PGSIZE)
    (hnone : ∀ x < WINPAGE, v ≤ x → d.lookup x = none)
    (hk : ∀ x e, WINPAGE ≤ x → d.lookup x = some e → e.u = false)
    (hv : Valid (m.free + d.frames)) :
    (¬ Whole pgdir sz ∧ ∃ s, copyLoop pgdir sz n v d m = .error s) ∨
      (∃ m', copyLoop pgdir sz n v d m = .ok (m', none) ∧ Exchange m m' d.frames 0) ∨
      ∃ m' d', copyLoop pgdir sz n v d m = .ok (m', some d') ∧ Exchange m m' d.frames d'.frames ∧
        (∀ x, ¬ (v ≤ x ∧ x * PGSIZE < sz) → d'.lookup x = d.lookup x) ∧
        ∀ x, v ≤ x → x * PGSIZE < sz → (d'.lookup x).isSome := by
  have hend : sz ≤ v * PGSIZE → ∀ x, v ≤ x → x * PGSIZE < sz → (d.lookup x).isSome :=
    fun hle x h₁ h₂ => (not_below hle ⟨h₁, h₂⟩).elim
  induction n generalizing v d m with
  | zero => exact Or.inr (Or.inr ⟨m, d, rfl, .refl m _, fun _ _ => rfl, hend hfuel⟩)
  | succ n ih =>
    unfold copyLoop
    by_cases hlt : v * PGSIZE < sz
    swap
    · rw [if_neg hlt]
      exact Or.inr (Or.inr ⟨m, d, rfl, .refl m _, fun _ _ => rfl, hend (Nat.le_of_not_lt hlt)⟩)
    rw [if_pos hlt]
    have hvw := lt_winpage hsz.le hlt
    rcases hp : pgdir.pde (v / NPTENTRIES) with _ | tab
    · refine Or.inl ⟨fun hw => ?_, _, rfl⟩
      have := hw v hlt
      rw [lookup_of_no_table hp le_rfl (Nat.lt_mul_of_div_lt (Nat.lt_succ_self _) (by decide))] at this
      cases this
    dsimp only
    rcases hpte : tab.pte (v % NPTENTRIES) with _ | e
    · refine Or.inl ⟨fun hw => ?_, _, rfl⟩
      have := hw v hlt
      rw [Pgdir.lookup_of_pde hp, hpte] at this
      cases this
    dsimp only
    rcases hka : kalloc m with ⟨m₁, _ | f⟩
    · -- no frame for the page
      obtain ⟨rfl, -⟩ := kalloc_none hka
      exact Or.inr (Or.inl (copyBad_exchange hv))
    have hfree := kalloc_some hka
    have hmove : Taken m (m₁.memmove f e.frame) := (kalloc_taken hka).write (mem_of_kalloc hka)
    obtain ⟨m₂, d₁, ok, hmap⟩ := mapPage_total (w := e.w) (u := e.u) (hvw.trans winpage_lt)
      (hnone v hvw le_rfl) f (m₁.memmove f e.frame)
    have howned := mapPage_owned hvw hmap
    obtain ⟨-, -, hl⟩ := mapPage_spec (hvw.trans winpage_lt) hmap
    have htaken := hmove.trans (mapPage_taken hmap)
    rw [show (m₁.memmove f e.frame).free = m₁.free from rfl] at howned
    dsimp only
    rw [hmap]
    cases ok with
    | false =>
      -- no frame for the page table: `f` is lost
      rw [if_neg Bool.false_ne_true, add_zero] at howned
      have hex : Exchange m m₂ d.frames d₁.frames := by
        refine ⟨?_, fun g hg => htaken.mem g fun hm => hg (Multiset.mem_add.2 (Or.inl hm))⟩
        rw [howned, hfree]
        exact add_le_add_left (Multiset.le_add_left _ _) _
      obtain ⟨m', hb, hex'⟩ := copyBad_exchange (hex.valid hv)
      exact Or.inr (Or.inl ⟨m', hb, hex.trans hex'⟩)
    | true =>
      rw [if_pos rfl] at howned
      have hex : Exchange m m₂ d.frames d₁.frames := .of_taken htaken (by rw [howned, hfree]; abel)
      have hl' : ∀ x, x ≠ v → d₁.lookup x = d.lookup x := fun x hx => by
        rw [hl, if_neg fun h => hx h.2]
      have hnone₁ : ∀ x < WINPAGE, v + 1 ≤ x → d₁.lookup x = none := fun x hx hvx => by
        rw [hl' x (by omega)]
        exact hnone x hx (by omega)
      have hk₁ : ∀ x e, WINPAGE ≤ x → d₁.lookup x = some e → e.u = false := fun x e' hx he => by
        rw [hl' x (by omega)] at he
        exact hk x e' hx he
      have hfuel' : sz ≤ (v + 1 + n) * PGSIZE := by rwa [show v + 1 + n = v + (n + 1) by omega]
      rcases ih hfuel' hnone₁ hk₁ (hex.valid hv) fun hle x h₁ h₂ => (not_below hle ⟨h₁, h₂⟩).elim with
        hpanic | ⟨m', hloop, hex'⟩ | ⟨m', d', hloop, hex', hout, hin⟩
      · exact Or.inl hpanic
      · exact Or.inr (Or.inl ⟨m', hloop, hex.trans hex'⟩)
      · refine Or.inr (Or.inr ⟨m', d', hloop, hex.trans hex', fun x hx => ?_, fun x h₁ h₂ => ?_⟩)
        · have hxv : x ≠ v := by
            rintro rfl
            exact hx ⟨le_rfl, hlt⟩
          rw [hout x fun h => hx ⟨by omega, h.2⟩, hl' x hxv]
        · by_cases hxv : x = v
          · rw [hout x (by omega), hl, if_pos ⟨rfl, hxv⟩]
            rfl
          · exact hin x (by omega) h₂

theorem NewKernel.space (h : NewKernel m m' d) : Space d 0 where
  size := by
    rw [winpage_bytes]
    decide
  below v hv hs := by
    rw [h.lookup v (hv.trans_le winpage_le)] at hs
    cases hs
  kernel v e _ he := h.kernel v e he

/-- **`copyuvm`** makes a copy from free frames, or none. It panics only where a page is missing. -/
theorem copyuvm_exchange (hsz : sz < WINPAGE * PGSIZE) (hv : Valid m.free) :
    (¬ Whole pgdir sz ∧ ∃ s, copyuvm pgdir sz m = .error s) ∨
      (∃ m', copyuvm pgdir sz m = .ok (m', none) ∧ Exchange m m' 0 0) ∨
      ∃ m' d', copyuvm pgdir sz m = .ok (m', some d') ∧ Exchange m m' 0 d'.frames ∧ Space d' sz ∧
        Whole d' sz := by
  unfold copyuvm
  rcases setupkvm_spec hv.ok with ⟨m₁, d, hset, hnew⟩ | ⟨m₁, hset, hfree, -, hmem⟩
  swap
  · rw [hset]
    refine Or.inr (Or.inl ⟨m₁, rfl, by rw [hfree], fun f hf => hmem f ?_⟩)
    rwa [add_zero] at hf
  rw [hset]
  have hex : Exchange m m₁ 0 d.frames := .of_taken hnew.taken (by rw [hnew.free, add_zero])
  have hspace := hnew.space
  rcases copyLoop_exchange (v := 0) hsz (le_fuel 0 sz (by decide))
    (fun x hx _ => hspace.unmapped hx (Nat.zero_le _)) hspace.kernel
    (hex.valid (by rwa [add_zero])) with hpanic | ⟨m', hloop, hex'⟩ | ⟨m', d', hloop, hex', hout, hin⟩
  · exact Or.inl hpanic
  · exact Or.inr (Or.inl ⟨m', hloop, hex.trans hex'⟩)
  · refine Or.inr (Or.inr ⟨m', d', hloop, hex.trans hex', ⟨hsz, fun x hx hs => ?_, fun x e hx he => ?_⟩,
      fun x hx => hin x (Nat.zero_le x) hx⟩)
    · by_contra hge
      rw [hout x fun h => hge h.2, hspace.unmapped hx (Nat.zero_le _)] at hs
      cases hs
    · rw [hout x fun h => (lt_winpage hsz.le h.2).not_ge hx] at he
      exact hspace.kernel x e hx he

/-! ## `exec` -/

theorem Loaded.space {m₀ : Kmem} (h : Loaded m₀ m d sz) : Space d sz :=
  ⟨h.size, fun v hv => (h.mapped v hv).1, h.kernel⟩

theorem Loaded.whole {m₀ : Kmem} (h : Loaded m₀ m d sz) : Whole d sz := fun v hv =>
  (h.mapped v (lt_winpage h.size.le hv)).2 hv

theorem clearpteu_space (h : clearpteu d v = .ok d') (hs : Space d sz) : Space d' sz := by
  obtain ⟨-, -, hl⟩ := clearpteu_spec h
  refine ⟨hs.size, fun x hx hsome => hs.below x hx ?_, fun x e hx he => ?_⟩
  · rw [hl] at hsome
    split_ifs at hsome with hxv
    · rwa [Option.isSome_map, ← hxv] at hsome
    · exact hsome
  · rw [hl] at he
    split_ifs at he
    · obtain ⟨e', -, rfl⟩ := Option.map_eq_some_iff.1 he
      rfl
    · exact hs.kernel x e hx he

theorem clearpteu_whole (h : clearpteu d v = .ok d') (hw : Whole d sz) : Whole d' sz := by
  obtain ⟨-, -, hl⟩ := clearpteu_spec h
  intro x hx
  rw [hl]
  split_ifs with hxv
  · rw [Option.isSome_map, ← hxv]
    exact hw x hx
  · exact hw x hx

/-- The pages of the program and of its stack. -/
theorem buildStack_space {m₀ : Kmem} {argv : List (List ℕ)} {newsz esp : ℕ} (hv : Valid m₀.free)
    (h : Loaded m₀ m d sz) (hb : buildStack d sz argv m = .ok (m', d', some (newsz, esp))) :
    Space d' newsz ∧ Whole d' newsz := by
  unfold buildStack at hb
  by_cases hbig : WINPAGE * PGSIZE ≤ PGROUNDUP sz + 2 * PGSIZE
  · have halloc : allocuvm d (PGROUNDUP sz) (PGROUNDUP sz + 2 * PGSIZE) m = .ok (m, d, 0) := by
      unfold allocuvm
      rw [if_pos hbig]
    rw [halloc] at hb
    cases hb
  have hl : Loaded m₀ m d (PGROUNDUP sz) :=
    ⟨h.toSpare, by omega, fun v hv => (h.mapped v hv).trans lt_PGROUNDUP.symm, h.kernel⟩
  rcases hl.allocuvm hv (PGROUNDUP sz + 2 * PGSIZE) with
    ⟨m₁, d₁, halloc, -⟩ | ⟨m₁, d₁, sz₁, halloc, hl₁, -, -⟩
  · rw [halloc] at hb
    cases hb
  rw [halloc] at hb
  dsimp only at hb
  by_cases hzero : sz₁ = 0
  · rw [if_pos hzero] at hb
    cases hb
  rw [if_neg hzero] at hb
  rcases hc : clearpteu d₁ ((sz₁ - 2 * PGSIZE) / PGSIZE) with s | d₂
  · rw [hc] at hb
    cases hb
  rw [hc] at hb
  dsimp only at hb
  have hres : d₂ = d' ∧ sz₁ = newsz := by
    split at hb
    · cases hb
    · split at hb
      · cases hb
      · obtain ⟨-, hd, hsz⟩ : _ ∧ d₂ = d' ∧ (sz₁ = newsz ∧ _) := by simpa using hb
        exact ⟨hd, hsz.1⟩
  obtain ⟨rfl, rfl⟩ := hres
  exact ⟨clearpteu_space hc hl₁.space, clearpteu_whole hc hl₁.whole⟩

namespace ExecState

/-- **`exec`** trades the old memory for a new one, or keeps it. -/
theorem exec_exchange {s : ExecState} (h : Space s.pgdir s.sz)
    (hv : Valid (s.kmem.free + s.pgdir.frames)) (x : ExecFile) (path : List ℕ)
    {argv : List (List ℕ)} (hargv : ∀ a ∈ argv, a.length < KERNBASE) :
    ∃ s' r, s.exec x path argv = .ok (s', r) ∧
      Exchange s.kmem s'.kmem s.pgdir.frames s'.pgdir.frames ∧ Space s'.pgdir s'.sz ∧
      (Whole s.pgdir s.sz → Whole s'.pgdir s'.sz) := by
  have hfree : Valid s.kmem.free := hv.mono (Multiset.le_add_right _ _)
  have hkeep : ∀ {m' : Kmem}, m'.free = s.kmem.free → (∀ f ∉ s.kmem.free, m'.mem f = s.kmem.mem f) →
      Exchange s.kmem m' s.pgdir.frames s.pgdir.frames := fun hm hmem =>
    ⟨by rw [hm], fun f hf => hmem f fun hm => hf (Multiset.mem_add.2 (Or.inl hm))⟩
  unfold exec
  rcases x.readi 0 0 ELFHDRSIZE with ⟨r, bs⟩
  by_cases hfound : x.found = false
  · dsimp only
    rw [if_pos hfound]
    exact ⟨_, _, rfl, .refl _ _, h, id⟩
  dsimp only
  rw [if_neg hfound]
  by_cases helf : r ≠ ELFHDRSIZE ∨ getLE (stored bs) 0 4 ≠ ELF_MAGIC
  · rw [if_pos helf]
    exact ⟨_, _, rfl, .refl _ _, h, id⟩
  rw [if_neg helf]
  rcases setupkvm_spec hfree.ok with ⟨m₁, d₁, hset, hnew⟩ | ⟨m₁, hset, hfree₁, -, hmem⟩
  swap
  · rw [hset]
    exact ⟨_, _, rfl, hkeep hfree₁ hmem, h, id⟩
  rw [hset]
  dsimp only
  have hl₁ : Loaded s.kmem m₁ d₁ 0 := by
    have hspace := hnew.space
    refine ⟨⟨hnew.free, hnew.taken.mem⟩, hspace.size, fun v hv => ?_, hspace.kernel⟩
    rw [hspace.unmapped hv (Nat.zero_le _)]
    exact iff_of_false Bool.false_ne_true (Nat.not_lt_zero _)
  rcases loadLoop_spec (x := x) (n := getLE (stored bs) 44 2) (o := getLE (stored bs) 28 4) (k := 1)
    hfree hl₁ with ⟨m₂, d₂, hload, hs⟩ | ⟨m₂, d₂, sz₂, hload, hl₂⟩
  · obtain ⟨m₃, hfv, hfree₃, hmem⟩ := hs.freevm hfree
    rw [hload]
    dsimp only
    rw [bad_eq hfv, if_pos rfl]
    exact ⟨_, _, rfl, hkeep hfree₃ hmem, h, id⟩
  rw [hload]
  dsimp only
  rcases buildStack_spec hfree hl₂ hargv with
    ⟨m₃, d₃, hbuild, hs⟩ | ⟨m₃, d₃, base, f, esp, hbuild, hs, -⟩
  · obtain ⟨m₄, hfv, hfree₄, hmem⟩ := hs.freevm hfree
    rw [hbuild]
    dsimp only
    rw [bad_eq hfv, if_neg Bool.false_ne_true]
    exact ⟨_, _, rfl, hkeep hfree₄ hmem, h, id⟩
  rw [hbuild]
  dsimp only
  obtain ⟨m₄, hfv⟩ := freevm_total hv.frames_ok m₃
  rw [hfv]
  obtain ⟨hspace, hwhole⟩ := buildStack_space hfree hl₂ hbuild
  -- the new memory is taken beside the old one, which is given back last
  have hnew₃ : Exchange s.kmem m₃ s.pgdir.frames (s.pgdir.frames + d₃.frames) := by
    have hex := hs.toSpare.exchange.frame s.pgdir.frames
    rwa [zero_add, add_comm d₃.frames] at hex
  have hold : Exchange m₃ m₄ (s.pgdir.frames + d₃.frames) d₃.frames := by
    have hex := (freevm_exchange hfv).frame d₃.frames
    rwa [zero_add] at hex
  exact ⟨_, _, rfl, hnew₃.trans hold, hspace, fun _ => hwhole⟩

end ExecState

/-! ## `inituvm` -/

/-- **`inituvm`** of a new directory, if it returns. With one frame left there is none for the page
table, which it does not notice. -/
theorem inituvm_exchange {init : ℕ → ℕ} {k : ℕ} (h : Space d 0) (hpde : d.pde 0 = none)
    (hi : inituvm d init k m = .ok (m', d')) :
    Exchange m m' d.frames d'.frames ∧ Space d' PGSIZE ∧ (Whole d' PGSIZE ↔ m.free.card ≠ 1) := by
  have hpos : 0 < WINPAGE := by
    unfold WINPAGE
    decide
  have hnone : d.lookup 0 = none := h.unmapped hpos (Nat.zero_le _)
  unfold inituvm at hi
  split_ifs at hi
  rcases hka : kalloc m with ⟨m₁, _ | f⟩
  · rw [hka] at hi
    cases hi
  rw [hka] at hi
  dsimp only at hi
  have hzero : Taken m (m₁.memset f 0) := (kalloc_taken hka).write (mem_of_kalloc hka)
  obtain ⟨m₂, d₁, ok, hmap⟩ := mapPage_total (w := true) (u := true) (hpos.trans winpage_lt) hnone f
    (m₁.memset f 0)
  have howned := mapPage_owned hpos hmap
  obtain ⟨-, -, hl⟩ := mapPage_spec (hpos.trans winpage_lt) hmap
  have hpage := hzero.trans (mapPage_taken hmap)
  have hcard := (mapPage_card hnone hmap).2 (by
    rw [Nat.zero_div, hpde]
    exact Bool.false_ne_true)
  have hcard₁ : m.free.card = m₁.free.card + 1 := by
    rw [kalloc_some hka, Multiset.card_add, Multiset.card_singleton, Nat.add_comm]
  rw [Kmem.memset_free] at howned hcard
  rw [Nat.zero_mul] at hmap
  rw [hmap] at hi
  obtain ⟨rfl, rfl⟩ := Prod.mk.inj (Except.ok.inj hi)
  have htaken := hpage.write (b := fun i => if i < k then init i else m₂.mem f i) (mem_of_kalloc hka)
  have hle : m₂.free + d₁.frames ≤ m.free + d.frames := by
    rw [howned, kalloc_some hka]
    split_ifs
    · exact le_of_eq (by abel)
    · rw [add_zero]
      exact add_le_add_left (Multiset.le_add_left _ _) _
  refine ⟨⟨hle, fun g hg => htaken.mem g fun hm => hg (Multiset.mem_add.2 (Or.inl hm))⟩, ⟨?_,
    fun x hx hs => ?_, fun x e hx he => ?_⟩, ?_⟩
  · rw [winpage_bytes]
    decide
  · rw [hl] at hs
    split_ifs at hs with hx0
    · rw [hx0.2]
      decide
    · rw [h.unmapped hx (Nat.zero_le _)] at hs
      cases hs
  · rw [hl, if_neg fun hx0 => (hx0.2 ▸ hx).not_gt hpos] at he
    exact h.kernel x e hx he
  · cases ok with
    | true =>
      have := hcard.2 rfl
      refine iff_of_true (fun x hx => ?_) (by omega)
      have hx0 : x = 0 := by
        simp only [PGSIZE] at hx
        omega
      rw [hl, if_pos ⟨rfl, hx0⟩]
      rfl
    | false =>
      have := hcard.1 rfl
      refine iff_of_false (fun hw => ?_) (by omega)
      have hpage₀ := hw 0 (by decide)
      rw [hl, if_neg (by simp), hnone] at hpage₀
      cases hpage₀

theorem inituvm_enough {init : ℕ → ℕ} {k : ℕ} (hpde : d.pde 0 = none) (hk : k < PGSIZE)
    (hcard : 2 ≤ m.free.card) :
    ∃ m' d', inituvm d init k m = .ok (m', d') ∧ m.free.card ≤ m'.free.card + 2 := by
  unfold inituvm
  obtain ⟨m₁, f, hf, hcard₁⟩ := kalloc_enough (m := m) (by omega)
  have hnone : d.lookup 0 = none := by
    rw [Pgdir.lookup, Nat.zero_div, hpde]
    rfl
  obtain ⟨m₂, d₁, hmap, hcard₂⟩ := mapPage_enough (w := true) (u := true) (by decide) hnone f
    (m := m₁.memset f 0) (by rw [Kmem.memset_free]; omega)
  rw [Nat.zero_mul] at hmap
  rw [Kmem.memset_free] at hcard₂
  rw [if_neg (Nat.not_le.2 hk), hf]
  dsimp only
  rw [hmap]
  refine ⟨_, _, rfl, ?_⟩
  show m.free.card ≤ m₂.free.card + 2
  omega

end Space

end OsPlayground
