import OsPlayground.Umalloc.Blocks

/-!
# `malloc`

* `take_spec`: a block is cut off the end of a free one, or is a whole free one.
* `morecore_spec`: more memory comes as a free block.
* **`mallocLoop_spec`**: the loop returns, and keeps the invariant.
-/

namespace OsPlayground

namespace Umalloc

open Lib

variable {base lo nunits : ℕ} {h : Heap} {ts ts₁ ts₂ : List Block} {t : Block}

/-- The blocks that are in use. -/
def lives (ts : List Block) : List Block := ts.filter fun t => !t.free

/-! ## Taking a block -/

/-- What `take` leaves: a new block in use. -/
structure Taken (base lo nunits : ℕ) (h h' : Heap) (ts ts' : List Block) (t : Block) : Prop where
  inv : Inv base lo h' ts'
  live : t.free = false
  units : t.units = nunits
  lives : (lives ts').Perm (t :: lives ts)

/-- A free block behind an element of the list. -/
theorem Inv.block_at (hi : Inv base lo h ts) {prev x : ℕ} (hprev : prev ∈ base :: frees ts)
    (hx : h.ptr prev = x) (hpos : 0 < h.size x) : ∃ ts₁ t ts₂ l₁, ts = ts₁ ++ t :: ts₂ ∧ t.addr = x ∧
      t.free = true ∧ Cut base ts₁ l₁ prev := by
  obtain ⟨a, b, hab⟩ := List.append_of_mem hprev
  have hnext := (hi.round.rotate hab).next_eq
  rcases b with _ | ⟨y, b⟩
  · -- `base` has no units
    have hbase : h.ptr prev = base := by
      rw [hnext]
      simp only [List.nil_append, ← hab, List.head_cons]
    rw [← hx, hbase, hi.base_size] at hpos
    cases hpos
  · have hy : h.ptr prev = y := by
      rw [hnext]
      rfl
    obtain rfl : y = x := hy.symm.trans hx
    obtain ⟨l, hl⟩ : ∃ l, base :: l = a ++ [prev] := by
      rcases a with _ | ⟨c, a⟩
      · exact ⟨[], by rw [(List.cons.inj hab).1]; rfl⟩
      · exact ⟨a ++ [prev], by rw [(List.cons.inj hab).1]; rfl⟩
    have hfrees : frees ts = l ++ y :: b := by
      have happ : base :: frees ts = base :: (l ++ y :: b) := by
        rw [hab, ← List.cons_append, hl, List.append_assoc, List.singleton_append]
      exact (List.cons.inj happ).2
    obtain ⟨ts₁, t, ts₂, hts, ht, hfree, h₁, -⟩ := frees_split hfrees
    exact ⟨ts₁, t, ts₂, a, hts, ht, hfree, ⟨by rw [h₁, hl]⟩⟩

/-- `take` where the headers may be touched. -/
theorem take_eq (nunits : ℕ) {prev x : ℕ} (hp : prev + 8 ≤ h.brk) (hx : x + 8 ≤ h.brk)
    (hq : plus x (h.size x - nunits) + 8 ≤ h.brk) : take nunits prev x h =
      .ok (if h.size x = nunits then
        (plus x 1, { h with ptr := Function.update h.ptr prev (h.ptr x), freep := prev })
      else (plus (plus x (h.size x - nunits)) 1, { h with
        size := Function.update (Function.update h.size x (h.size x - nunits)) (plus x (h.size x - nunits)) nunits
        freep := prev })) := by
  rw [take, getSize_ok hx]
  change (if h.size x = nunits then _ else _) = _
  split_ifs with he
  · rw [getPtr_ok hx]
    change (h.setPtr prev (h.ptr x)).bind _ = _
    rw [setPtr_ok hp]
    rfl
  · change (h.setSize x (h.size x - nunits)).bind _ = _
    rw [setSize_ok hx]
    have hq' : plus x (h.size x - nunits) + 8 ≤
      { h with size := Function.update h.size x (h.size x - nunits) }.brk := hq
    change (Heap.setSize { h with size := _ } (plus x (h.size x - nunits)) nunits).bind _ = _
    rw [setSize_ok hq']
    rfl

theorem lives_append (ts₁ ts₂ : List Block) : lives (ts₁ ++ ts₂) = lives ts₁ ++ lives ts₂ :=
  List.filter_append _ _

theorem lives_free (ht : t.free = true) (ts : List Block) : lives (t :: ts) = lives ts :=
  List.filter_cons_of_neg (by simp [ht])

theorem lives_live (ht : t.free = false) (ts : List Block) : lives (t :: ts) = t :: lives ts :=
  List.filter_cons_of_pos (by simp [ht])

/-- A whole free block is taken out of the list. -/
theorem take_whole {l₁ : List ℕ} {prev : ℕ} (hi : Inv base lo h (ts₁ ++ t :: ts₂)) (ht : t.free = true)
    (hc : Cut base ts₁ l₁ prev) :
    Inv base lo { h with ptr := Function.update h.ptr prev (h.ptr t.addr), freep := prev }
      (ts₁ ++ { t with free := false } :: ts₂) := by
  obtain ⟨hlay₁, hlay₂, hpos, hend⟩ := hi.around
  have hround := hi.round
  rw [frees_append, frees_free ht] at hround
  have hprev : prev ∈ base :: frees ts₁ := by
    rw [hc.eq]
    exact List.mem_append_right l₁ List.mem_cons_self
  have hfrees : frees (ts₁ ++ { t with free := false } :: ts₂) = frees ts₁ ++ frees ts₂ := by
    rw [frees_append, frees_live rfl]
  have hlist : base :: frees (ts₁ ++ t :: ts₂) = l₁ ++ prev :: (t.addr :: frees ts₂) := by
    rw [frees_append, frees_free ht, ← List.cons_append, hc.eq, List.append_assoc, List.singleton_append]
  have hnot : prev ∉ t.addr :: (frees ts₂ ++ l₁) := by
    have hsorted := hi.sorted
    rw [hlist, List.pairwise_append] at hsorted
    intro hp
    rcases List.mem_append.1 (List.cons_append ▸ hp : prev ∈ (t.addr :: frees ts₂) ++ l₁) with hp | hp
    · exact lt_irrefl prev ((List.pairwise_cons.1 hsorted.2.1).1 prev hp)
    · exact lt_irrefl prev (hsorted.2.2 prev hp prev List.mem_cons_self)
  refine ⟨hi.base_pos, hi.base_le, hi.top, laid_append.2 ⟨t.addr, hlay₁, rfl, hpos, hlay₂⟩, fun s hs => ?_,
    hi.base_size, ?_, ?_, ?_⟩
  · rcases List.mem_append.1 hs with hs | hs
    · exact hi.sizes s (List.mem_append_left _ hs)
    · rcases List.mem_cons.1 hs with rfl | hs
      · exact hi.sizes t (List.mem_append_right ts₁ List.mem_cons_self)
      · exact hi.sizes s (List.mem_append_right ts₁ (List.mem_cons_of_mem t hs))
  · rw [hfrees]
    exact hc.round.2 ((hc.round.1 hround).skip hnot)
  · rw [hfrees, ← List.cons_append]
    exact List.mem_append_left _ hprev
  · have hchain := List.isChain_append.1 hi.merged
    refine List.isChain_append.2 ⟨hchain.1, List.isChain_cons.2 ⟨fun s hs hun => ?_,
      List.isChain_of_isChain_cons hchain.2.1⟩, fun s hs s' hs' hun => ?_⟩
    · exact Bool.false_ne_true hun.1
    · obtain rfl := Option.some.inj hs'
      exact Bool.false_ne_true hun.2

/-- The end of a free block is cut off. -/
theorem take_end {prev : ℕ} (hi : Inv base lo h (ts₁ ++ t :: ts₂)) (ht : t.free = true) (hn : 0 < nunits)
    (hlt : nunits < t.units) (hprev : prev ∈ base :: frees (ts₁ ++ t :: ts₂)) :
    Inv base lo { h with
      size := Function.update (Function.update h.size t.addr (t.units - nunits))
        (t.addr + 8 * (t.units - nunits)) nunits
      freep := prev }
      (ts₁ ++ { t with units := t.units - nunits } :: ⟨t.addr + 8 * (t.units - nunits), nunits, false⟩ :: ts₂) := by
  obtain ⟨hlay₁, hlay₂, hpos, hend⟩ := hi.around
  have hcut : t.addr + 8 * (t.units - nunits) + 8 * nunits = t.addr + 8 * t.units := by omega
  have hfrees : frees (ts₁ ++ { t with units := t.units - nunits } ::
      ⟨t.addr + 8 * (t.units - nunits), nunits, false⟩ :: ts₂) = frees (ts₁ ++ t :: ts₂) := by
    rw [frees_append, frees_append, frees_free ht, frees_free (t := { t with units := t.units - nunits }) ht,
      frees_live rfl]
  have hother : ∀ a, a ≠ t.addr → a ≠ t.addr + 8 * (t.units - nunits) →
      Function.update (Function.update h.size t.addr (t.units - nunits))
        (t.addr + 8 * (t.units - nunits)) nunits a = h.size a := fun a h₁ h₂ => by
    rw [Function.update_of_ne h₂, Function.update_of_ne h₁]
  refine ⟨hi.base_pos, hi.base_le, hi.top, laid_append.2 ⟨t.addr, hlay₁, rfl, by dsimp only; omega, rfl, hn, ?_⟩,
    fun s hs => ?_, ?_, ?_, ?_, ?_⟩
  · dsimp only
    rw [hcut]
    exact hlay₂
  · rcases List.mem_append.1 hs with hs | hs
    · have hm := laid_mem hlay₁ hs
      exact (hother s.addr (by omega) (by omega)).trans (hi.sizes s (List.mem_append_left _ hs))
    · rcases List.mem_cons.1 hs with rfl | hs
      · have hne : t.addr ≠ t.addr + 8 * (t.units - nunits) := by omega
        exact (Function.update_of_ne hne _ _).trans (Function.update_self _ _ _)
      · rcases List.mem_cons.1 hs with rfl | hs
        · exact Function.update_self _ _ _
        · have hm := laid_mem hlay₂ hs
          exact (hother s.addr (by omega) (by omega)).trans
            (hi.sizes s (List.mem_append_right ts₁ (List.mem_cons_of_mem t hs)))
  · have hle := laid_le hlay₁
    have hb := hi.base_le
    exact (hother base (by omega) (by omega)).trans hi.base_size
  · rw [hfrees]
    exact hi.round
  · rw [hfrees]
    exact hprev
  · have hchain := List.isChain_append.1 hi.merged
    refine List.isChain_append.2 ⟨hchain.1, List.isChain_cons_cons.2 ⟨fun hun => Bool.false_ne_true hun.2,
      List.isChain_cons.2 ⟨fun s hs hun => Bool.false_ne_true hun.1,
        List.isChain_of_isChain_cons hchain.2.1⟩⟩, fun s hs s' hs' hun => ?_⟩
    obtain rfl := Option.some.inj hs'
    exact hchain.2.2 s hs t rfl ⟨hun.1, ht⟩

/-- **What `take` does** with a free block that is large enough. -/
theorem take_spec (hi : Inv base lo h ts) {prev x : ℕ} (hprev : prev ∈ base :: frees ts) (hx : h.ptr prev = x)
    (hn : 0 < nunits) (hfit : nunits ≤ h.size x) : ∃ h' ts' t, take nunits prev x h = .ok (t.addr + 8, h') ∧
      Taken base lo nunits h h' ts ts' t := by
  obtain ⟨ts₁, t, ts₂, l₁, rfl, rfl, ht, hc⟩ := hi.block_at hprev hx (Nat.lt_of_lt_of_le hn hfit)
  obtain ⟨hlay₁, hlay₂, hpos, hend⟩ := hi.around
  have htop := hi.top
  have hsize : h.size t.addr = t.units := hi.sizes t (List.mem_append_right ts₁ List.mem_cons_self)
  have ht8 : t.addr + 8 ≤ h.brk := by omega
  rw [hsize] at hfit
  have hplus : plus t.addr (t.units - nunits) = t.addr + 8 * (t.units - nunits) := plus_eq (by omega)
  have htake := take_eq nunits (hi.access hprev) ht8 (by rw [hsize, hplus]; omega)
  rw [hsize, hplus] at htake
  by_cases he : t.units = nunits
  · rw [if_pos he, plus_eq (by omega)] at htake
    refine ⟨_, _, { t with free := false }, htake, take_whole hi ht hc, rfl, he, ?_⟩
    rw [lives_append, lives_live rfl, lives_append, lives_free ht]
    exact List.perm_middle
  · rw [if_neg he, plus_eq (by omega)] at htake
    refine ⟨_, _, ⟨t.addr + 8 * (t.units - nunits), nunits, false⟩, htake,
      take_end hi ht hn (by omega) hprev, rfl, rfl, ?_⟩
    rw [lives_append, lives_free (t := { t with units := t.units - nunits }) ht, lives_live rfl, lives_append,
      lives_free ht]
    exact List.perm_middle

/-! ## More memory -/

/-- Memory behind the last block, as a block in use. -/
theorem Inv.grow {nu : ℕ} (hi : Inv base lo h ts) (hn : 0 < nu) (htop : h.brk + 8 * nu < 2 ^ 31) :
    Inv base lo { h with brk := h.brk + 8 * nu, size := Function.update h.size h.brk nu }
      (ts ++ [⟨h.brk, nu, false⟩]) := by
  have hfrees : frees (ts ++ [⟨h.brk, nu, false⟩]) = frees ts := by
    rw [frees_append, frees_live rfl]
    exact List.append_nil _
  refine ⟨hi.base_pos, hi.base_le, htop, laid_append.2 ⟨h.brk, hi.laid, rfl, hn, rfl⟩, fun s hs => ?_, ?_, ?_, ?_, ?_⟩
  · rcases List.mem_append.1 hs with hs | hs
    · have hm := laid_mem hi.laid hs
      have hne : s.addr ≠ h.brk := by omega
      exact (Function.update_of_ne hne _ _).trans (hi.sizes s hs)
    · obtain rfl := List.mem_singleton.1 hs
      exact Function.update_self _ _ _
  · have hle := laid_le hi.laid
    have hb := hi.base_le
    have hne : base ≠ h.brk := by omega
    exact (Function.update_of_ne hne _ _).trans hi.base_size
  · rw [hfrees]
    exact hi.round
  · rw [hfrees]
    exact hi.freep
  · refine List.isChain_append.2 ⟨hi.merged, List.isChain_singleton _, fun s hs s' hs' hun => ?_⟩
    obtain rfl := Option.some.inj hs'
    exact Bool.false_ne_true hun.2

theorem sbrk_cases {n brk : ℕ} (granted : Bool) (hn : 0 < n) (hn' : n < 2 ^ 31) (hb : brk < 2 ^ 31) :
    sbrk granted n brk = none ∨ sbrk granted n brk = some (brk + n) ∧ brk + n < 2 ^ 31 := by
  have hmod : (brk + n) % 2 ^ 32 = brk + n := Nat.mod_eq_of_lt (by omega)
  have hK : KERNBASE - MAXSHAREDPG * PGSIZE < 2 ^ 31 := by decide
  rw [sbrk, if_neg (by omega), if_pos hn', hmod]
  by_cases hk : brk + n ≥ KERNBASE - MAXSHAREDPG * PGSIZE
  · exact .inl (if_pos hk)
  · rw [if_neg hk, if_neg (by omega)]
    cases granted with
    | false => exact .inl rfl
    | true => exact .inr ⟨rfl, by omega⟩

/-- The number of bytes that `morecore` asks for. -/
def bytesFor (nunits : ℕ) : ℕ := (if nunits < 4096 then 4096 else nunits) * 8 % 2 ^ 32

/-- **`morecore`** returns the null pointer, or the place before a free block that is large enough. -/
theorem morecore_spec {rounds : ℕ} (hr : 2 ^ 31 ≤ rounds) (hi : Inv base lo h ts) (hn : nunits < 2 ^ 28)
    (granted : Bool) :
    (sbrk granted (bytesFor nunits) h.brk = none ∧ morecore rounds granted nunits h = .ok (0, h)) ∨
      ∃ h' ts', morecore rounds granted nunits h = .ok (h'.freep, h') ∧ Inv base lo h' ts' ∧
        lives ts' = lives ts ∧ (nunits ≤ h'.size h'.freep ∨ nunits ≤ h'.size (h'.ptr h'.freep)) := by
  have htop := hi.top
  obtain ⟨nu, hnu, hle, hpos, hlt⟩ : ∃ nu, (if nunits < 4096 then 4096 else nunits) = nu ∧ nunits ≤ nu ∧ 0 < nu ∧
      nu < 2 ^ 28 := by
    split_ifs with hs
    · exact ⟨4096, rfl, hs.le, by decide, by decide⟩
    · exact ⟨nunits, rfl, le_rfl, by omega, hn⟩
  have hbytes : nu * 8 % 2 ^ 32 = nu * 8 := Nat.mod_eq_of_lt (by omega)
  unfold morecore bytesFor
  rw [hnu]
  dsimp only
  rw [hbytes]
  rcases sbrk_cases (n := nu * 8) granted (by omega) (by omega) htop with he | ⟨he, hbrk⟩
  · rw [he]
    exact .inl ⟨rfl, rfl⟩
  · rw [he]
    have hcomm : nu * 8 = 8 * nu := Nat.mul_comm _ _
    rw [hcomm] at hbrk ⊢
    obtain ⟨h', ts', hfree, hinv, hlive, -, hfit⟩ := free_spec hr (hi.grow hpos hbrk) rfl
    refine .inr ⟨h', ts', ?_, hinv, ?_, hfit.imp hle.trans hle.trans⟩
    · have h8 : h.brk + 8 ≤ { h with brk := h.brk + 8 * nu }.brk := by
        change h.brk + 8 ≤ h.brk + 8 * nu
        omega
      change (Heap.setSize { h with brk := h.brk + 8 * nu } h.brk nu).bind _ = _
      rw [setSize_ok h8]
      change (free rounds (plus h.brk 1) { h with brk := h.brk + 8 * nu, size := _ }).bind _ = _
      rw [plus_eq (by omega), hfree]
      rfl
    · rw [List.append_nil] at hlive
      exact hlive

/-! ## The loop -/

/-- The loop goes round once: it takes a block, or it reaches `freep` and there is none. -/
theorem mallocLoop_walk (rounds k nunits : ℕ) (granted : ℕ → Bool) {prev : ℕ} {l : List ℕ}
    (hc : (prev :: (l ++ [h.freep])).IsChain fun x y => h.ptr x = y) (hl : h.freep ∉ l)
    (hacc : ∀ x ∈ prev :: (l ++ [h.freep]), x + 8 ≤ h.brk) :
    (∃ pr ∈ prev :: l, nunits ≤ h.size (h.ptr pr) ∧
      mallocLoop rounds granted nunits (k + l.length + 1) prev h = take nunits pr (h.ptr pr) h) ∨
    ((∀ x ∈ l ++ [h.freep], h.size x < nunits) ∧
      mallocLoop rounds granted nunits (k + l.length + 1) prev h =
        (morecore rounds (granted k) nunits h).bind fun x =>
          if x.1 = 0 then .ok (0, x.2) else mallocLoop rounds granted nunits k x.1 x.2) := by
  induction l generalizing prev with
  | nil =>
    have hprev := hacc prev List.mem_cons_self
    have hnext : h.ptr prev = h.freep := (List.isChain_cons_cons.1 hc).1
    have hfreep := hacc h.freep (by simp)
    rw [mallocLoop, getPtr_ok hprev]
    change (∃ pr ∈ _, _ ∧ (h.getSize (h.ptr prev)).bind _ = _) ∨ (_ ∧ (h.getSize (h.ptr prev)).bind _ = _)
    rw [hnext, getSize_ok hfreep]
    by_cases hfit : h.size h.freep ≥ nunits
    · exact .inl ⟨prev, List.mem_cons_self, by rw [hnext]; exact hfit, by rw [hnext]; exact if_pos hfit⟩
    · refine .inr ⟨fun x hx => ?_, ?_⟩
      · obtain rfl := List.mem_singleton.1 hx
        exact Nat.lt_of_not_le hfit
      · exact (if_neg hfit).trans (if_pos rfl)
  | cons y l ih =>
    have hprev := hacc prev List.mem_cons_self
    obtain ⟨hnext, hc⟩ := List.isChain_cons_cons.1 hc
    have hy := hacc y (by simp)
    rw [List.length_cons, ← Nat.add_assoc, mallocLoop, getPtr_ok hprev]
    change (∃ pr ∈ _, _ ∧ (h.getSize (h.ptr prev)).bind _ = _) ∨ (_ ∧ (h.getSize (h.ptr prev)).bind _ = _)
    rw [hnext, getSize_ok hy]
    by_cases hfit : h.size y ≥ nunits
    · exact .inl ⟨prev, List.mem_cons_self, by rw [hnext]; exact hfit, by rw [hnext]; exact if_pos hfit⟩
    · have hne : y ≠ h.freep := fun he => hl (he ▸ List.mem_cons_self)
      have hstep : (Except.ok (h.size y) : Except Stop ℕ).bind (fun size =>
          if size ≥ nunits then take nunits prev y h
          else if y = h.freep then (morecore rounds (granted (k + l.length + 1)) nunits h).bind fun x =>
            if x.1 = 0 then .ok (0, x.2) else mallocLoop rounds granted nunits (k + l.length + 1) x.1 x.2
          else mallocLoop rounds granted nunits (k + l.length + 1) y h) =
          mallocLoop rounds granted nunits (k + l.length + 1) y h := (if_neg hfit).trans (if_neg hne)
      rcases ih hc (fun hm => hl (List.mem_cons_of_mem y hm))
        (fun x hx => hacc x (List.mem_cons_of_mem prev hx)) with ⟨pr, hpr, hsize, he⟩ | ⟨hall, he⟩
      · exact .inl ⟨pr, List.mem_cons_of_mem prev hpr, hsize, hstep.trans he⟩
      · refine .inr ⟨fun x hx => ?_, hstep.trans he⟩
        rcases List.mem_cons.1 hx with rfl | hx
        · exact Nat.lt_of_not_le hfit
        · exact hall x hx

theorem Inv.access_round (hi : Inv base lo h ts) {l : List ℕ} (hmem : ∀ y, y ∈ h.freep :: l ↔ y ∈ base :: frees ts) :
    ∀ x ∈ h.freep :: (l ++ [h.freep]), x + 8 ≤ h.brk := by
  intro x hx
  refine hi.access ((hmem x).1 ?_)
  simp only [List.mem_cons, List.mem_append, List.not_mem_nil, or_false] at hx ⊢
  rcases hx with hx | hx | hx
  · exact .inl hx
  · exact .inr hx
  · exact .inl hx

/-- What `malloc` returns and leaves: the null pointer and the blocks as they were, where `sbrk` fails,
or a new block. -/
def Malloced (base lo nunits : ℕ) (granted : ℕ → Bool) (brk : ℕ) (ts : List Block)
    (r : Except Stop (ℕ × Heap)) : Prop :=
  (∃ h' ts', r = .ok (0, h') ∧ Inv base lo h' ts' ∧ lives ts' = lives ts ∧
    ∃ k, sbrk (granted k) (bytesFor nunits) brk = none) ∨
  ∃ h' ts' t, r = .ok (t.addr + 8, h') ∧ Inv base lo h' ts' ∧ t.free = false ∧ t.units = nunits ∧
    (lives ts').Perm (t :: lives ts)

/-- **The loop of `malloc`** ends: after `morecore` there is a block that is large enough. -/
theorem mallocLoop_spec {rounds : ℕ} (hr : 2 ^ 32 ≤ rounds) (granted : ℕ → Bool) (hi : Inv base lo h ts)
    (hpos : 0 < nunits) (hn : nunits < 2 ^ 28) :
    Malloced base lo nunits granted h.brk ts (mallocLoop rounds granted nunits rounds h.freep h) := by
  have htop := hi.top
  have hrounds : 2 ^ 31 ≤ rounds := by omega
  obtain ⟨l, hround, hmem, hlen, hnot⟩ := hi.walk hi.freep
  obtain ⟨k, hk⟩ : ∃ k, rounds = k + l.length + 1 := ⟨rounds - l.length - 1, by omega⟩
  have hacc := hi.access_round hmem
  have hloop : mallocLoop rounds granted nunits rounds h.freep h =
      mallocLoop rounds granted nunits (k + l.length + 1) h.freep h := by rw [← hk]
  rw [hloop]
  rcases mallocLoop_walk rounds k nunits granted hround hnot hacc with
    ⟨pr, hpr, hfit, he⟩ | ⟨-, he⟩
  · obtain ⟨h', ts', t, htake, hinv, hlive, hunits, hperm⟩ := take_spec hi ((hmem pr).1 hpr) rfl hpos hfit
    exact .inr ⟨h', ts', t, he.trans htake, hinv, hlive, hunits, hperm⟩
  · rcases morecore_spec hrounds hi hn (granted k) with
      ⟨hsbrk, hmore⟩ | ⟨h', ts', hmore, hinv, hlives, hfit⟩
    · rw [hmore] at he
      exact .inl ⟨h, ts, by rw [he]; rfl, hi, rfl, k, hsbrk⟩
    · have hne : h'.freep ≠ 0 := by
        have hb := hinv.base_pos
        rcases List.mem_cons.1 hinv.freep with hf | hf
        · omega
        · have hlt := (List.pairwise_cons.1 hinv.sorted).1 _ hf
          omega
      rw [hmore] at he
      have he' : mallocLoop rounds granted nunits (k + l.length + 1) h.freep h =
          mallocLoop rounds granted nunits k h'.freep h' := he.trans (if_neg hne)
      rw [he']
      have htop' := hinv.top
      obtain ⟨l', hround', hmem', hlen', hnot'⟩ := hinv.walk hinv.freep
      obtain ⟨k', hk'⟩ : ∃ k', k = k' + l'.length + 1 := ⟨k - l'.length - 1, by omega⟩
      have hacc' := hinv.access_round hmem'
      rw [hk']
      rcases mallocLoop_walk rounds k' nunits granted hround' hnot' hacc'
        with ⟨pr, hpr, hsize, hr'⟩ | ⟨hall, -⟩
      · obtain ⟨h'', ts'', t, htake, hinv'', hlive, hunits, hperm⟩ :=
          take_spec hinv ((hmem' pr).1 hpr) rfl hpos hsize
        rw [hlives] at hperm
        exact .inr ⟨h'', ts'', t, hr'.trans htake, hinv'', hlive, hunits, hperm⟩
      · exfalso
        rcases hfit with hfit | hfit
        · have hlt := hall h'.freep (by simp)
          omega
        · have hin : h'.ptr h'.freep ∈ l' ++ [h'.freep] := by
            rw [hround'.next_eq]
            exact List.head_mem _
          have hlt := hall _ hin
          omega

/-! ## `malloc` -/

theorem Inv.init (hbase : 0 < base) (hle : base + 8 ≤ h.brk) (htop : h.brk < 2 ^ 31) :
    Inv base h.brk { h with
      ptr := Function.update h.ptr base base
      size := Function.update h.size base 0
      freep := base } [] where
  base_pos := hbase
  base_le := hle
  top := htop
  laid := rfl
  sizes _ ht := absurd ht List.not_mem_nil
  base_size := Function.update_self _ _ _
  round := List.isChain_cons_cons.2 ⟨Function.update_self _ _ _, List.isChain_singleton _⟩
  freep := List.mem_cons_self
  merged := List.isChain_nil

theorem unitsFor_spec {nbytes : ℕ} (h : nbytes ≤ 2 ^ 31 - 16) :
    0 < unitsFor nbytes ∧ unitsFor nbytes < 2 ^ 28 ∧ nbytes + 8 ≤ 8 * unitsFor nbytes := by
  rw [unitsFor]
  omega

end Umalloc

end OsPlayground
