import OsPlayground.Fs.Alloc

/-!
# The block map

* `Store.block`: the contents of a block of a file; a hole reads as zeros.
* `Fill`: a new block was put into an empty slot of an inode.
* `Grown`: what any number of these leaves; `Grown.trans`.
* **`bmap_spec`**: `bmap` fills the slot, changes no contents, and fails only on a full disk.
-/

namespace OsPlayground

namespace Fs

open Lib

namespace Store

/-- The block `bn` of the file. -/
def block (fs : Store) (i bn : ℕ) : Bytes :=
  if fs.ref i (slotOf bn) = 0 then fun _ => 0 else fs.disk (fs.ref i (slotOf bn))

/-- How many blocks are free. -/
def free (fs : Store) : ℕ := ((Finset.range fs.sb.size).filter fun b => fs.bit b = false).card

/-- How many slots of the inode are empty. -/
def absent (fs : Store) (i : ℕ) : ℕ := ((Finset.range NSLOT).filter fun k => fs.ref i k = 0).card

end Store

theorem slotOf_lt {bn : ℕ} (h : bn < MAXFILE) : slotOf bn < NSLOT := by
  unfold slotOf
  have hm : MAXFILE = 140 := rfl
  have hs : NSLOT = 141 := rfl
  split_ifs <;> omega

theorem slotOf_ne (bn : ℕ) : slotOf bn ≠ NDIRECT := by
  unfold slotOf
  have hd : NDIRECT = 12 := rfl
  split_ifs <;> omega

theorem slotOf_inj {bn bn' : ℕ} (h : slotOf bn = slotOf bn') : bn = bn' := by
  unfold slotOf at h
  split_ifs at h <;> omega

theorem ndirect_lt : NDIRECT < NSLOT := by decide

variable {fs fs' fs'' : Store} {inum k b i bn : ℕ}

/-- The slot `k` of the inode `inum`, which was empty, refers to the new block `b`. -/
structure Fill (fs fs' : Store) (inum k b : ℕ) : Prop where
  alloc : Alloc fs' []
  lt : b < fs.sb.size
  free : fs.bit b = false
  hole : fs.ref inum k = 0
  sb : fs'.sb = fs.sb
  freed : fs'.freed = fs.freed
  mem : ∀ i, i ≠ inum → fs'.mem i = fs.mem i
  cached : (fs'.mem inum).isSome = true
  ip : ∃ a, fs'.ip inum = { fs.ip inum with addrs := a } ∧
    ∀ k, NDIRECT < k → a k = (fs.ip inum).addrs k
  super : fs'.disk 1 = fs.disk 1
  inodes : ∀ i < fs.sb.ninodes, fs'.disk (IBLOCK i fs.sb) = fs.disk (IBLOCK i fs.sb)
  data : ∀ x, nmeta fs.sb ≤ x → x ≠ b → x ≠ fs.ref inum NDIRECT → fs'.disk x = fs.disk x
  zero : fs'.disk b = fun _ => 0
  ref : ∀ i < fs.sb.ninodes, ∀ k' < NSLOT,
    fs'.ref i k' = if i = inum ∧ k' = k then b else fs.ref i k'
  bits : ∀ x < fs.sb.size, fs'.bit x = (decide (x = b) || fs.bit x)

/-- Blocks were put into empty slots of the inode `inum`. -/
structure Grown (fs fs' : Store) (inum : ℕ) : Prop where
  sb : fs'.sb = fs.sb
  freed : fs'.freed = fs.freed
  mem : ∀ i, i ≠ inum → fs'.mem i = fs.mem i
  cached : (fs'.mem inum).isSome = true
  ip : ∃ a, fs'.ip inum = { fs.ip inum with addrs := a } ∧
    ∀ k, NDIRECT < k → a k = (fs.ip inum).addrs k
  inodes : ∀ i < fs.sb.ninodes, fs'.disk (IBLOCK i fs.sb) = fs.disk (IBLOCK i fs.sb)
  ref : ∀ i < fs.sb.ninodes, ∀ k < NSLOT, fs.ref i k ≠ 0 → fs'.ref i k = fs.ref i k
  other : ∀ i < fs.sb.ninodes, i ≠ inum → ∀ k < NSLOT, fs'.ref i k = fs.ref i k
  spend : fs'.free + fs.absent inum = fs.free + fs'.absent inum

namespace Grown

theorem refl (h : (fs.mem inum).isSome = true) : Grown fs fs inum :=
  ⟨rfl, rfl, fun _ _ => rfl, h, ⟨_, rfl, fun _ _ => rfl⟩, fun _ _ => rfl, fun _ _ _ _ _ => rfl,
    fun _ _ _ _ _ => rfl, rfl⟩

theorem trans (h : Grown fs fs' inum) (h' : Grown fs' fs'' inum) : Grown fs fs'' inum := by
  obtain ⟨a, ha, hak⟩ := h.ip
  obtain ⟨a', ha', hak'⟩ := h'.ip
  have hsb := h.sb
  refine ⟨h'.sb.trans hsb, h'.freed.trans h.freed, fun i hi => (h'.mem i hi).trans (h.mem i hi),
    h'.cached, ⟨a', by rw [ha', ha], fun k hk => ?_⟩, fun i hi => ?_, fun i hi k hk hr => ?_,
    fun i hi hne k hk => ?_, ?_⟩
  · rw [hak' k hk, ha]
    exact hak k hk
  · have := h'.inodes i (hsb ▸ hi)
    rw [hsb] at this
    rw [this, h.inodes i hi]
  · rw [h'.ref i (hsb ▸ hi) k hk (by rwa [h.ref i hi k hk hr]), h.ref i hi k hk hr]
  · rw [h'.other i (hsb ▸ hi) hne k hk, h.other i hi hne k hk]
  · have h₁ := h.spend
    have h₂ := h'.spend
    omega

theorem ip_other (h : Grown fs fs' inum) (hi : i < fs.sb.ninodes) (hne : i ≠ inum) :
    fs'.ip i = fs.ip i := (Store.ip_congr h.sb (h.mem i hne) (h.inodes i hi)).2

theorem dinode (h : Grown fs fs' inum) (hi : i < fs.sb.ninodes) : fs'.dinode i = fs.dinode i := by
  unfold Store.dinode
  rw [h.sb, h.inodes i hi]

end Grown

namespace Fill

theorem grown (h : Fill fs fs' inum k b) (hi : inum < fs.sb.ninodes) (hk : k < NSLOT)
    (hpos : b ≠ 0) : Grown fs fs' inum := by
  refine ⟨h.sb, h.freed, h.mem, h.cached, h.ip, h.inodes, fun i hi' k' hk' hr => ?_,
    fun i hi' hne k' hk' => ?_, ?_⟩
  · rw [h.ref i hi' k' hk', if_neg]
    rintro ⟨rfl, rfl⟩
    exact hr h.hole
  · rw [h.ref i hi' k' hk', if_neg fun hik => hne hik.1]
  · have hfree : (Finset.range fs.sb.size).filter (fun x => fs'.bit x = false) =
        ((Finset.range fs.sb.size).filter fun x => fs.bit x = false).erase b := by
      ext x
      simp only [Finset.mem_filter, Finset.mem_erase, Finset.mem_range]
      constructor
      · rintro ⟨hx, hb⟩
        rw [h.bits x hx, Bool.or_eq_false_iff, decide_eq_false_iff_not] at hb
        exact ⟨hb.1, hx, hb.2⟩
      · rintro ⟨hxb, hx, hb⟩
        rw [h.bits x hx, hb, decide_eq_false hxb]
        exact ⟨hx, rfl⟩
    have habsent : (Finset.range NSLOT).filter (fun k' => fs'.ref inum k' = 0) =
        ((Finset.range NSLOT).filter fun k' => fs.ref inum k' = 0).erase k := by
      ext k'
      simp only [Finset.mem_filter, Finset.mem_erase, Finset.mem_range]
      constructor
      · rintro ⟨hk', hr⟩
        rw [h.ref inum hi k' hk'] at hr
        split_ifs at hr with hkk
        · exact absurd hr hpos
        · exact ⟨fun he => hkk ⟨rfl, he⟩, hk', hr⟩
      · rintro ⟨hne, hk', hr⟩
        rw [h.ref inum hi k' hk', if_neg fun hkk => hne hkk.2]
        exact ⟨hk', hr⟩
    have hmem : b ∈ (Finset.range fs.sb.size).filter fun x => fs.bit x = false :=
      Finset.mem_filter.mpr ⟨Finset.mem_range.mpr h.lt, h.free⟩
    have hmem' : k ∈ (Finset.range NSLOT).filter fun k' => fs.ref inum k' = 0 :=
      Finset.mem_filter.mpr ⟨Finset.mem_range.mpr hk, h.hole⟩
    have h₁ := Finset.card_erase_add_one hmem
    have h₂ := Finset.card_erase_add_one hmem'
    unfold Store.free Store.absent
    rw [h.sb, hfree, habsent]
    omega

theorem block (h : Fill fs fs' inum k b) (ha : Alloc fs []) (hinum : inum < fs.sb.ninodes)
    (hi : i < fs.sb.ninodes) (hbn : bn < MAXFILE) : fs'.block i bn = fs.block i bn := by
  have hs := slotOf_lt hbn
  obtain ⟨hmeta, -, hnone⟩ := ha.of_bit_false h.lt h.free
  unfold Store.block
  by_cases hik : i = inum ∧ slotOf bn = k
  · rw [h.ref i hi _ hs, if_pos hik, hik.1, hik.2, if_pos h.hole]
    split_ifs
    · rfl
    · exact h.zero
  · rw [h.ref i hi _ hs, if_neg hik]
    split_ifs with hr
    · rfl
    · refine h.data _ (ha.range i hi _ hs hr).1 (hnone i hi _ hs) fun he => ?_
      exact slotOf_ne bn (ha.inj i hi _ hs inum hinum _ ndirect_lt he hr).2

end Fill

/-- Every block is marked. -/
def Store.Full (fs : Store) : Prop := ∀ b < fs.sb.size, fs.bit b = true

theorem Store.Full.free_eq (h : fs.Full) : fs.free = 0 := by
  unfold Store.free
  rw [Finset.card_eq_zero, Finset.filter_eq_empty_iff]
  intro b hb
  rw [h b (Finset.mem_range.mp hb)]
  decide

/-- A block of zeros goes into an empty slot of `addrs`. -/
theorem ref_setAddr (hk : k ≤ NDIRECT) (hz : (fs.ip inum).addrs k = 0)
    (hzero : fs.disk b = fun _ => 0) (hb : b ≠ 0) (i k' : ℕ) :
    (fs.setIp inum fun r => { r with addrs := Function.update r.addrs k b }).ref i k' =
      if i = inum ∧ k' = k then b else fs.ref i k' := by
  generalize ht : fs.setIp inum (fun r => { r with addrs := Function.update r.addrs k b }) = t
  have hdisk : t.disk = fs.disk := by rw [← ht]; rfl
  by_cases hne : i = inum
  · subst hne
    have hip : t.ip i = { fs.ip i with addrs := Function.update (fs.ip i).addrs k b } := by
      rw [← ht]
      simp [Store.ip, Store.setIp]
    by_cases hk₁ : k' ≤ NDIRECT
    · rw [Store.ref_direct t hk₁, Store.ref_direct fs hk₁, hip]
      by_cases hkk : k' = k
      · rw [if_pos ⟨rfl, hkk⟩, hkk]
        show Function.update (fs.ip i).addrs k b k = b
        exact Function.update_self _ _ _
      · rw [if_neg fun he => hkk he.2]
        show Function.update (fs.ip i).addrs k b k' = _
        exact Function.update_of_ne hkk _ _
    · rw [if_neg (by omega)]
      by_cases hkd : k = NDIRECT
      · -- the new indirect block has no entries
        subst hkd
        obtain ⟨j, rfl⟩ : ∃ j, k' = NDIRECT + 1 + j := ⟨k' - (NDIRECT + 1), by omega⟩
        have haddr : (t.ip i).addrs NDIRECT = b := by
          rw [hip]
          show Function.update (fs.ip i).addrs NDIRECT b NDIRECT = b
          exact Function.update_self _ _ _
        rw [Store.ref_indirect t j (by rwa [haddr]), haddr, hdisk, hzero,
          Store.ref_hole fs (by omega) hz]
        exact getLE_of_zero fun _ _ _ => rfl
      · have haddr : (t.ip i).addrs NDIRECT = (fs.ip i).addrs NDIRECT := by
          rw [hip]
          exact Function.update_of_ne (Ne.symm hkd) _ _
        unfold Store.ref
        rw [if_neg hk₁, if_neg hk₁, haddr, hdisk]
  · have hip : t.ip i = fs.ip i := by
      rw [← ht]
      simp [Store.ip, Store.setIp, Store.dinode, Function.update_of_ne hne]
    rw [if_neg fun he => hne he.1]
    exact Store.ref_congr hip fun _ => by rw [hdisk]

/-- A number goes into an entry of the indirect block `c` of `inum`. -/
theorem ref_putEntry {t : Store} {c j : ℕ} (hc : (fs.ip inum).addrs NDIRECT = c) (hc₀ : c ≠ 0)
    (ht : t.disk = Function.update fs.disk c (putLE (fs.disk c) (4 * j) 4 b)) (hb : b < 256 ^ 4)
    (hip : t.ip i = fs.ip i) (hapart : i ≠ inum → (fs.ip i).addrs NDIRECT ≠ c) (k' : ℕ) :
    t.ref i k' = if i = inum ∧ k' = NDIRECT + 1 + j then b else fs.ref i k' := by
  have hd : NDIRECT = 12 := rfl
  by_cases hk₁ : k' ≤ NDIRECT
  · rw [Store.ref_direct t hk₁, Store.ref_direct fs hk₁, hip, if_neg (by omega)]
  obtain ⟨j', rfl⟩ : ∃ j', k' = NDIRECT + 1 + j' := ⟨k' - (NDIRECT + 1), by omega⟩
  by_cases hhole : (fs.ip i).addrs NDIRECT = 0
  · have hne : i ≠ inum := by
      rintro rfl
      exact hc₀ (hc.symm.trans hhole)
    rw [Store.ref_hole t (by omega) (by rw [hip, hhole]), Store.ref_hole fs (by omega) hhole,
      if_neg fun he => hne he.1]
  · rw [Store.ref_indirect t j' (by rwa [hip]), Store.ref_indirect fs j' hhole, hip]
    by_cases hne : i = inum
    · subst hne
      rw [hc, ht, Function.update_self]
      by_cases hjj : j' = j
      · subst hjj
        rw [if_pos ⟨rfl, rfl⟩, getLE_putLE hb]
      · rw [if_neg (by omega), getLE_putLE_of_disjoint (by omega)]
    · rw [ht, Function.update_of_ne (hapart hne), if_neg fun he => hne he.1]

/-- A `balloc` whose result goes into the slot `k`. -/
theorem mapAddr_cases (h : Alloc fs []) (hi : inum < fs.sb.ninodes) (hk : k ≤ NDIRECT) :
    fs.ref inum k ≠ 0 ∧ mapAddr inum k fs = .ok (fs.ref inum k, fs) ∨
    fs.ref inum k = 0 ∧ (mapAddr inum k fs = .error "balloc: out of blocks" ∧ fs.Full ∨
      ∃ b fs', mapAddr inum k fs = .ok (b, fs') ∧ Fill fs fs' inum k b) := by
  have hd : NDIRECT = 12 := rfl
  have hn : NSLOT = 141 := rfl
  have href := Store.ref_direct (i := inum) fs hk
  unfold mapAddr
  by_cases hz : (fs.ip inum).addrs k = 0
  · rw [if_pos hz]
    refine .inr ⟨href.trans hz, ?_⟩
    rcases balloc_cases h with ⟨he, hfull⟩ | ⟨b, fs₁, he, ht⟩
    · exact .inl ⟨by rw [he]; rfl, hfull⟩
    refine .inr ⟨b, _, by rw [he]; rfl, ?_⟩
    obtain ⟨hmeta, -, -⟩ := ht.data h
    have hpos := h.layout.nmeta_pos
    obtain ⟨hsuper, hinodes, hdata⟩ := ht.other h
    have hi₁ : inum < fs₁.sb.ninodes := by rwa [ht.sb]
    have hip₁ : fs₁.ip inum = fs.ip inum := (ht.ip h hi).2
    have hset := ref_setAddr hk (by rw [hip₁, hz]) ht.zero (b := b) (by omega)
    generalize ht' : (fs₁.setIp inum fun r => { r with addrs := Function.update r.addrs k b }) = t at hset
    have hdisk : t.disk = fs₁.disk := by rw [← ht']; rfl
    have hsb : t.sb = fs.sb := by rw [← ht']; exact ht.sb
    have hmem : ∀ i, i ≠ inum → t.mem i = fs.mem i := fun i hne => by
      rw [← ht', Store.setIp, ← ht.mem]
      exact Function.update_of_ne hne _ _
    have hip : t.ip inum = { fs.ip inum with addrs := Function.update (fs.ip inum).addrs k b } := by
      rw [← ht', ← hip₁]
      simp [Store.ip, Store.setIp]
    have hrefs : ∀ i < fs.sb.ninodes, ∀ k' < NSLOT,
        t.ref i k' = if i = inum ∧ k' = k then b else fs.ref i k' := fun i hi' k' _ => by
      rw [hset i k', ht.ref h hi']
    have hbits : ∀ x < fs.sb.size, t.bit x = (decide (x = b) || fs.bit x) := fun x hx => by
      rw [← ht.bits x hx]
      unfold Store.bit
      rw [hdisk, hsb, ht.sb]
    have halloc : Alloc t [] := by
      refine (ht.alloc h).attach (hsb.trans ht.sb.symm) (by rw [hdisk]) hi₁
        (show k < NSLOT by omega) ?_ (fun i hi' k' hk' => hset i k') fun x hx => ?_
      · rw [ht.ref h hi, href, hz]
      · rw [ht.sb] at hx
        rw [hbits x hx, ht.bits x hx]
    exact ⟨halloc, ht.lt, ht.free, href.trans hz, hsb, by rw [← ht']; exact ht.freed, hmem,
      by rw [← ht']; simp [Store.setIp], ⟨Function.update (fs.ip inum).addrs k b, hip,
        fun k' hk' => Function.update_of_ne (show k' ≠ k by omega) _ _⟩,
      by rw [hdisk]; exact hsuper, fun i hi' => by rw [hdisk]; exact hinodes i hi',
      fun x hx hxb _ => by rw [hdisk]; exact hdata x hx hxb, by rw [hdisk]; exact ht.zero, hrefs,
      hbits⟩
  · rw [if_neg hz]
    exact .inl ⟨by rwa [href], by rw [href]⟩

/-- A `balloc` whose result goes into an entry of the indirect block. -/
theorem mapIndirect_cases {j : ℕ} (h : Alloc fs []) (hi : inum < fs.sb.ninodes)
    (hc : (fs.mem inum).isSome = true) (hj : j < NINDIRECT) (hind : fs.ref inum NDIRECT ≠ 0) :
    fs.ref inum (NDIRECT + 1 + j) ≠ 0 ∧ mapIndirect (fs.ref inum NDIRECT) j fs =
      .ok (fs.ref inum (NDIRECT + 1 + j), fs) ∨
    fs.ref inum (NDIRECT + 1 + j) = 0 ∧
      (mapIndirect (fs.ref inum NDIRECT) j fs = .error "balloc: out of blocks" ∧ fs.Full ∨
        ∃ b fs', mapIndirect (fs.ref inum NDIRECT) j fs = .ok (b, fs') ∧
          Fill fs fs' inum (NDIRECT + 1 + j) b) := by
  have hd : NDIRECT = 12 := rfl
  have hn : NSLOT = 141 := rfl
  have hnin : NINDIRECT = 128 := rfl
  have hdir : fs.ref inum NDIRECT = (fs.ip inum).addrs NDIRECT := Store.ref_direct fs le_rfl
  have href : fs.ref inum (NDIRECT + 1 + j) =
      getLE (fs.disk (fs.ref inum NDIRECT)) (4 * j) 4 := by
    rw [Store.ref_indirect fs j (hdir ▸ hind), hdir]
  have hrange := h.range inum hi NDIRECT ndirect_lt hind
  generalize hcdef : fs.ref inum NDIRECT = c at hind hrange hdir href
  unfold mapIndirect
  by_cases hz : getLE (fs.disk c) (4 * j) 4 = 0
  · rw [if_pos hz]
    refine .inr ⟨href.trans hz, ?_⟩
    rcases balloc_cases h with ⟨he, hfull⟩ | ⟨b, fs₁, he, ht⟩
    · exact .inl ⟨by rw [he]; rfl, hfull⟩
    refine .inr ⟨b, _, by rw [he]; rfl, ?_⟩
    obtain ⟨-, -, hnone⟩ := ht.data h
    obtain ⟨hsuper, hinodes, hdata⟩ := ht.other h
    have hi₁ : inum < fs₁.sb.ninodes := by rwa [ht.sb]
    have hcb : c ≠ b := hcdef ▸ hnone inum hi NDIRECT ndirect_lt
    have hcdata := h.layout.data hrange.1
    generalize ht' : fs₁.write c (putLE (fs₁.disk c) (4 * j) 4 b) = t
    have hwrite : t.disk = Function.update fs₁.disk c (putLE (fs₁.disk c) (4 * j) 4 b) := by
      rw [← ht']
      rfl
    have hdisk : ∀ x, x ≠ c → t.disk x = fs₁.disk x := fun x hx => by
      rw [hwrite]
      exact Function.update_of_ne hx _ _
    have hsb : t.sb = fs.sb := by rw [← ht']; exact ht.sb
    have hmem : t.mem = fs.mem := by rw [← ht']; exact ht.mem
    have hinodes' : ∀ i < fs.sb.ninodes, t.disk (IBLOCK i fs.sb) = fs.disk (IBLOCK i fs.sb) :=
      fun i hi' => by rw [hdisk _ (hcdata.2.2 i hi'), hinodes i hi']
    have hip : ∀ i < fs.sb.ninodes, t.ip i = fs.ip i := fun i hi' =>
      (Store.ip_congr hsb (congrFun hmem i) (hinodes' i hi')).2
    have hb32 : b < 256 ^ 4 := by
      have := ht.lt
      have := h.layout.size
      omega
    -- no other inode has the indirect block
    have hapart : ∀ i < fs.sb.ninodes, i ≠ inum → (fs.ip i).addrs NDIRECT ≠ c := by
      intro i hi' hne he
      refine hne (h.inj i hi' NDIRECT ndirect_lt inum hi NDIRECT ndirect_lt ?_ ?_).1
      · rw [Store.ref_direct fs le_rfl, hcdef, he]
      · rwa [Store.ref_direct fs le_rfl, he]
    have hput : ∀ i < fs.sb.ninodes, ∀ k',
        t.ref i k' = if i = inum ∧ k' = NDIRECT + 1 + j then b else fs₁.ref i k' := fun i hi' k' =>
      ref_putEntry (by rw [(ht.ip h hi).2, hdir]) hind hwrite hb32
        (by rw [hip i hi', (ht.ip h hi').2]) (fun hne => by
          rw [(ht.ip h hi').2]
          exact hapart i hi' hne) k'
    have hrefs : ∀ i < fs.sb.ninodes, ∀ k' < NSLOT,
        t.ref i k' = if i = inum ∧ k' = NDIRECT + 1 + j then b else fs.ref i k' :=
      fun i hi' k' _ => by rw [hput i hi' k', ht.ref h hi']
    have hbits : ∀ x < fs.sb.size, t.bit x = (decide (x = b) || fs.bit x) := fun x hx => by
      rw [← ht.bits x hx]
      unfold Store.bit
      rw [hsb, ht.sb, hdisk _ (hcdata.2.1 x hx).symm]
    have halloc : Alloc t [] := by
      refine (ht.alloc h).attach (hsb.trans ht.sb.symm) (hdisk 1 hcdata.1.symm) hi₁
        (show NDIRECT + 1 + j < NSLOT by omega) ?_ (fun i hi' k' hk' => ?_) fun x hx => ?_
      · rw [ht.ref h hi, href, hz]
      · rw [ht.sb] at hi'
        exact hput i hi' k'
      · rw [ht.sb] at hx
        rw [hbits x hx, ht.bits x hx]
    refine ⟨halloc, ht.lt, ht.free, href.trans hz, hsb, by rw [← ht']; exact ht.freed,
      fun i _ => congrFun hmem i, by rw [hmem]; exact hc,
      ⟨(fs.ip inum).addrs, hip inum hi, fun _ _ => rfl⟩, ?_, hinodes', fun x hx hxb hxc => ?_, ?_,
      hrefs, hbits⟩
    · rw [hdisk 1 hcdata.1.symm, hsuper]
    · rw [hcdef] at hxc
      rw [hdisk x hxc, hdata x hx hxb]
    · rw [hdisk b hcb.symm, ht.zero]
  · rw [if_neg hz]
    exact .inl ⟨by rwa [href], by rw [href]⟩

theorem Fill.pos (h : Fill fs fs' inum k b) (ha : Alloc fs []) : b ≠ 0 := by
  have := (ha.of_bit_false h.lt h.free).1
  have := ha.layout.nmeta_pos
  omega

theorem Store.absent_pos (hk : k < NSLOT) (h : fs.ref inum k = 0) : 0 < fs.absent inum :=
  Finset.card_pos.mpr ⟨k, Finset.mem_filter.mpr ⟨Finset.mem_range.mpr hk, h⟩⟩

/-- `bmap` has found or made the block `bn` of the file. -/
structure Mapped (fs fs' : Store) (inum bn : ℕ) : Prop where
  alloc : Alloc fs' []
  grown : Grown fs fs' inum
  ref : fs'.ref inum (slotOf bn) ≠ 0
  block : ∀ i < fs.sb.ninodes, ∀ bn < MAXFILE, fs'.block i bn = fs.block i bn
  only : ∀ bn' < MAXFILE, bn' ≠ bn → fs'.ref inum (slotOf bn') = fs.ref inum (slotOf bn')
  same : fs.ref inum (slotOf bn) ≠ 0 → fs' = fs

theorem Mapped.of_ref (h : Alloc fs []) (hc : (fs.mem inum).isSome = true)
    (hr : fs.ref inum (slotOf bn) ≠ 0) : Mapped fs fs inum bn :=
  ⟨h, .refl hc, hr, fun _ _ _ _ => rfl, fun _ _ _ => rfl, fun _ => rfl⟩

theorem Mapped.of_fill (h : Alloc fs []) (hi : inum < fs.sb.ninodes) (hbn : bn < MAXFILE)
    (hf : Fill fs fs' inum (slotOf bn) b) : Mapped fs fs' inum bn ∧ b = fs'.ref inum (slotOf bn) := by
  have hs := slotOf_lt hbn
  have hb : fs'.ref inum (slotOf bn) = b := by rw [hf.ref inum hi _ hs, if_pos ⟨rfl, rfl⟩]
  refine ⟨⟨hf.alloc, hf.grown hi hs (hf.pos h), by rw [hb]; exact hf.pos h,
    fun i hi' _ hbn' => hf.block h hi hi' hbn', fun bn' hbn' hne => ?_,
    fun hr => absurd hf.hole hr⟩, hb.symm⟩
  rw [hf.ref inum hi _ (slotOf_lt hbn'), if_neg fun hk => hne (slotOf_inj hk.2)]

/-- **What `bmap` does.** It gives the block of the slot, which it fills if it is empty, or the free
blocks do not suffice for the empty slots of the inode. -/
theorem bmap_spec (h : Alloc fs []) (hi : inum < fs.sb.ninodes)
    (hc : (fs.mem inum).isSome = true) (hbn : bn < MAXFILE) :
    bmap inum bn fs = .error "balloc: out of blocks" ∧ fs.free < fs.absent inum ∧
      fs.ref inum (slotOf bn) = 0 ∨
    ∃ fs', bmap inum bn fs = .ok (fs'.ref inum (slotOf bn), fs') ∧ Mapped fs fs' inum bn := by
  have hm : MAXFILE = NDIRECT + NINDIRECT := rfl
  have hs := slotOf_lt hbn
  unfold bmap
  by_cases hd : bn < NDIRECT
  · rw [if_pos hd]
    have hslot : slotOf bn = bn := if_pos hd
    rcases mapAddr_cases h hi hd.le with ⟨hr, he⟩ | ⟨hr, ⟨he, hfull⟩ | ⟨b, fs', he, hf⟩⟩
    · rw [← hslot] at hr he
      exact .inr ⟨fs, by rw [← he, hslot], .of_ref h hc hr⟩
    · rw [← hslot] at hr
      refine .inl ⟨he, ?_, hr⟩
      rw [hfull.free_eq]
      exact Store.absent_pos hs hr
    · rw [← hslot] at hf
      obtain ⟨hmap, hb⟩ := Mapped.of_fill h hi hbn hf
      exact .inr ⟨fs', by rw [he, hb], hmap⟩
  · rw [if_neg hd, if_pos (by omega)]
    have hslot : slotOf bn = NDIRECT + 1 + (bn - NDIRECT) := by
      rw [slotOf, if_neg hd]
      omega
    have hj : bn - NDIRECT < NINDIRECT := by omega
    have hhole : fs.ref inum NDIRECT = 0 → fs.ref inum (slotOf bn) = 0 := fun hr => by
      rw [hslot]
      exact Store.ref_hole fs (by omega) ((Store.ref_direct fs le_rfl).symm.trans hr)
    -- the second half, from the state in which the indirect block is there
    have hsecond : ∀ fs₁, Alloc fs₁ [] → fs₁.sb = fs.sb → (fs₁.mem inum).isSome = true →
        fs₁.ref inum NDIRECT ≠ 0 →
        mapIndirect (fs₁.ref inum NDIRECT) (bn - NDIRECT) fs₁ = .error "balloc: out of blocks" ∧
          fs₁.free < fs₁.absent inum ∧ fs₁.ref inum (slotOf bn) = 0 ∨
        ∃ fs', mapIndirect (fs₁.ref inum NDIRECT) (bn - NDIRECT) fs₁ =
          .ok (fs'.ref inum (slotOf bn), fs') ∧ Mapped fs₁ fs' inum bn := by
      intro fs₁ h₁ hsb hc₁ hind
      have hi₁ : inum < fs₁.sb.ninodes := by rwa [hsb]
      rcases mapIndirect_cases h₁ hi₁ hc₁ hj hind with ⟨hr, he⟩ | ⟨hr, ⟨he, hfull⟩ | ⟨b, fs', he, hf⟩⟩
      · rw [← hslot] at hr he
        exact .inr ⟨fs₁, he, .of_ref h₁ hc₁ hr⟩
      · rw [← hslot] at hr
        refine .inl ⟨he, ?_, hr⟩
        rw [hfull.free_eq]
        exact Store.absent_pos hs hr
      · rw [← hslot] at hf
        obtain ⟨hmap, hb⟩ := Mapped.of_fill h₁ hi₁ hbn hf
        exact .inr ⟨fs', by rw [he, hb], hmap⟩
    rcases mapAddr_cases h hi le_rfl with ⟨hr, he⟩ | ⟨hr, ⟨he, hfull⟩ | ⟨b, fs₁, he, hf⟩⟩
    · rw [he]
      exact hsecond fs h rfl hc hr
    · rw [he]
      refine .inl ⟨rfl, ?_, hhole hr⟩
      rw [hfull.free_eq]
      exact Store.absent_pos ndirect_lt hr
    · rw [he]
      have hg := hf.grown hi ndirect_lt (hf.pos h)
      have hb : fs₁.ref inum NDIRECT = b := by
        rw [hf.ref inum hi _ ndirect_lt, if_pos ⟨rfl, rfl⟩]
      have hind : fs₁.ref inum NDIRECT ≠ 0 := by
        rw [hb]
        exact hf.pos h
      have hspend := hg.spend
      rw [← hb]
      rcases hsecond fs₁ hf.alloc hf.sb hf.cached hind with ⟨he', hlt, -⟩ | ⟨fs', he', hmap⟩
      · exact .inl ⟨he', by omega, hhole hr⟩
      · refine .inr ⟨fs', he', hmap.alloc, hg.trans hmap.grown, hmap.ref, fun i hi' x hx => ?_,
          fun bn' hbn' hne => ?_, fun hne => ?_⟩
        · rw [hmap.block i (by rwa [hf.sb]) x hx, hf.block h hi hi' hx]
        · rw [hmap.only bn' hbn' hne, hf.ref inum hi _ (slotOf_lt hbn'),
            if_neg fun hk => slotOf_ne bn' hk.2]
        · exact absurd (hhole hr) hne

theorem bmap_of_ref (hbn : bn < MAXFILE) (hr : fs.ref inum (slotOf bn) ≠ 0) :
    bmap inum bn fs = .ok (fs.ref inum (slotOf bn), fs) := by
  have hm : MAXFILE = NDIRECT + NINDIRECT := rfl
  unfold bmap
  by_cases hd : bn < NDIRECT
  · have hslot : slotOf bn = bn := if_pos hd
    rw [hslot, Store.ref_direct fs hd.le] at hr ⊢
    rw [if_pos hd, mapAddr, if_neg hr]
  · have hslot : slotOf bn = NDIRECT + 1 + (bn - NDIRECT) := by
      rw [slotOf, if_neg hd]
      omega
    have hind : (fs.ip inum).addrs NDIRECT ≠ 0 := fun hz => by
      rw [hslot] at hr
      exact hr (Store.ref_hole fs (by omega) hz)
    rw [hslot, Store.ref_indirect fs _ hind] at hr ⊢
    rw [if_neg hd, if_pos (by omega), mapAddr, if_neg hind]
    show mapIndirect _ _ fs = _
    rw [mapIndirect, if_neg hr]

end Fs

end OsPlayground
