import OsPlayground.Fs.Sound

/-!
# Freeing the blocks of an inode

* `Released`, `bfree_eq`: what `bfree` does to a marked block.
* `taken`: the blocks in some slots of an inode.
* `Freeing`: the state of `itrunc` after these are freed; `Freeing.bfree`, one more of them.
* **`itrunc_spec`**, **`iput_spec`**: each block of the inode is freed exactly once, and the file
  system is sound again.
-/

namespace OsPlayground

namespace Fs

open Lib

theorem foldlM_range {S : Type} {ε : Type} {f : S → ℕ → Except ε S} {P : ℕ → S → Prop} {n : ℕ}
    (hf : ∀ i < n, ∀ s, P i s → ∃ s', f s i = .ok s' ∧ P (i + 1) s') {s : S} (hs : P 0 s) :
    ∃ s', (List.range n).foldlM f s = .ok s' ∧ P n s' := by
  induction n with
  | zero => exact ⟨s, rfl, hs⟩
  | succ n ih =>
    obtain ⟨s₁, he, hs₁⟩ := ih fun i hi => hf i (by omega)
    obtain ⟨s₂, he', hs₂⟩ := hf n (by omega) s₁ hs₁
    refine ⟨s₂, ?_, hs₂⟩
    rw [List.range_succ, List.foldlM_append, he]
    show [n].foldlM f s₁ = _
    rw [List.foldlM_cons, he']
    rfl

variable {fs₀ fs fs' : Store} {inum i k b : ℕ} {ks : List ℕ}

/-- `bfree` has freed the block `b`. -/
structure Released (fs fs' : Store) (b : ℕ) : Prop where
  sb : fs'.sb = fs.sb
  mem : fs'.mem = fs.mem
  freed : fs'.freed = fs.freed ++ [b]
  disk : ∀ x, x ≠ BBLOCK b fs.sb → fs'.disk x = fs.disk x
  bits : ∀ x, fs'.bit x = (decide (b ≠ x) && fs.bit x)

theorem bfree_eq (hsuper : readsb fs.disk = fs.sb) (hb : fs.bit b = true) :
    ∃ fs', bfree b fs = .ok fs' ∧ Released fs fs' b := by
  have hbit : getBit (fs.disk (BBLOCK b fs.sb)) (b % BPB) = true := hb
  unfold bfree
  simp only [hsuper, hbit]
  refine ⟨_, rfl, rfl, rfl, rfl, fun x hx => Function.update_of_ne hx _ _, fun x => ?_⟩
  unfold Store.bit Store.write
  by_cases hB : BBLOCK x fs.sb = BBLOCK b fs.sb
  · simp only [hB, Function.update_self, getBit_clearBit]
    congr 1
    exact decide_eq_decide.mpr (not_congr ⟨fun hm => (bblock_eq hB hm).symm, fun he => by rw [he]⟩)
  · have hne : b ≠ x := fun he => hB (by rw [he])
    simp only [Function.update_of_ne hB, decide_eq_true hne, Bool.true_and]

/-- The blocks in the slots `ks`. -/
def taken (fs : Store) (inum : ℕ) (ks : List ℕ) : List ℕ := (ks.map (fs.ref inum)).filter (· ≠ 0)

theorem mem_taken : b ∈ taken fs inum ks ↔ b ≠ 0 ∧ ∃ k ∈ ks, fs.ref inum k = b := by
  rw [taken, List.mem_filter, List.mem_map, decide_eq_true_iff, and_comm]

theorem taken_concat (fs : Store) (inum : ℕ) (ks : List ℕ) (k : ℕ) : taken fs inum (ks ++ [k]) =
    taken fs inum ks ++ if fs.ref inum k = 0 then [] else [fs.ref inum k] := by
  unfold taken
  rw [List.map_append, List.filter_append]
  congr 1
  by_cases hz : fs.ref inum k = 0
  · simp [hz]
  · simp [hz]

theorem nodup_taken (h : Alloc fs []) (hi : inum < fs.sb.ninodes) (hks : ∀ k ∈ ks, k < NSLOT)
    (hnd : ks.Nodup) : (taken fs inum ks).Nodup := by
  induction ks with
  | nil => exact List.nodup_nil
  | cons k ks ih =>
    obtain ⟨hk, hnd⟩ := List.nodup_cons.mp hnd
    have htail := ih (fun k hk => hks k (List.mem_cons_of_mem _ hk)) hnd
    unfold taken at htail ⊢
    rw [List.map_cons, List.filter_cons]
    split_ifs with hz
    · refine List.nodup_cons.mpr ⟨fun hm => ?_, htail⟩
      obtain ⟨hm, -⟩ := List.mem_filter.mp hm
      obtain ⟨k', hk', he⟩ := List.mem_map.mp hm
      have hne : fs.ref inum k ≠ 0 := of_decide_eq_true hz
      obtain rfl := (h.inj inum hi k (hks k List.mem_cons_self) inum hi k'
        (hks k' (List.mem_cons_of_mem _ hk')) he.symm hne).2
      exact hk hk'
    · exact htail

/-- The blocks in the slots `ks` of `inum` have been freed. -/
structure Freeing (fs₀ fs : Store) (inum : ℕ) (ks : List ℕ) : Prop where
  sb : fs.sb = fs₀.sb
  freed : fs.freed = fs₀.freed ++ taken fs₀ inum ks
  disk : ∀ x, (∀ b < fs₀.sb.size, x ≠ BBLOCK b fs₀.sb) → fs.disk x = fs₀.disk x
  bits : ∀ b < fs₀.sb.size, fs.bit b = (decide (b ∉ taken fs₀ inum ks) && fs₀.bit b)
  mem : ∀ i, i ≠ inum → fs.mem i = fs₀.mem i
  bound : ∀ k ∈ ks, k < NSLOT

namespace Freeing

theorem refl (fs : Store) (inum : ℕ) : Freeing fs fs inum [] :=
  ⟨rfl, by simp [taken], fun _ _ => rfl, fun b _ => by simp [taken], fun _ _ => rfl, by simp⟩

theorem super (h : Freeing fs₀ fs inum ks) (h₀ : Alloc fs₀ []) : fs.disk 1 = fs₀.disk 1 :=
  h.disk 1 fun _ hb => (h₀.layout.bblock hb).1.symm

theorem data (h : Freeing fs₀ fs inum ks) (h₀ : Alloc fs₀ []) (hb : nmeta fs₀.sb ≤ b) :
    fs.disk b = fs₀.disk b := h.disk b fun _ hx => (h₀.layout.data hb).2.1 _ hx

theorem inodes (h : Freeing fs₀ fs inum ks) (h₀ : Alloc fs₀ []) (hi : i < fs₀.sb.ninodes) :
    fs.disk (IBLOCK i fs₀.sb) = fs₀.disk (IBLOCK i fs₀.sb) :=
  h.disk _ fun _ hb => (h₀.layout.bblock hb).2.2 i hi

theorem setIp (h : Freeing fs₀ fs inum ks) (f : Inode → Inode) :
    Freeing fs₀ (fs.setIp inum f) inum ks :=
  ⟨h.sb, h.freed, h.disk, h.bits, fun i hi => (Store.setIp_mem_of_ne f hi).trans (h.mem i hi),
    h.bound⟩

theorem skip (h : Freeing fs₀ fs inum ks) (hk : k < NSLOT) (hz : fs₀.ref inum k = 0) :
    Freeing fs₀ fs inum (ks ++ [k]) := by
  have ht : taken fs₀ inum (ks ++ [k]) = taken fs₀ inum ks := by
    rw [taken_concat, if_pos hz, List.append_nil]
  refine ⟨h.sb, by rw [ht]; exact h.freed, h.disk, by rw [ht]; exact h.bits, h.mem,
    fun k' hk' => ?_⟩
  rcases List.mem_append.mp hk' with hm | hm
  · exact h.bound k' hm
  · rwa [List.mem_singleton.mp hm]

/-- **One more block is freed.** It is still marked, so `bfree` does not panic. -/
theorem bfree (h : Freeing fs₀ fs inum ks) (h₀ : Alloc fs₀ []) (hi : inum < fs₀.sb.ninodes)
    (hk : k < NSLOT) (hnew : k ∉ ks) (hr : fs₀.ref inum k ≠ 0) :
    ∃ fs', Fs.bfree (fs₀.ref inum k) fs = .ok fs' ∧ Freeing fs₀ fs' inum (ks ++ [k]) ∧
      fs'.mem = fs.mem := by
  have hrange := h₀.range inum hi k hk hr
  have hfresh : fs₀.ref inum k ∉ taken fs₀ inum ks := fun hm => by
    obtain ⟨-, k', hk', he⟩ := mem_taken.mp hm
    obtain rfl := (h₀.inj inum hi k hk inum hi k' (h.bound k' hk') he.symm hr).2
    exact hnew hk'
  have hbit : fs.bit (fs₀.ref inum k) = true := by
    rw [h.bits _ hrange.2, decide_eq_true hfresh, h₀.bit_ref hi hk hr]
    rfl
  have hsuper : readsb fs.disk = fs.sb := by
    rw [readsb_congr (h.super h₀), h₀.super, h.sb]
  obtain ⟨fs', he, hrel⟩ := bfree_eq hsuper hbit
  have ht : taken fs₀ inum (ks ++ [k]) = taken fs₀ inum ks ++ [fs₀.ref inum k] := by
    rw [taken_concat, if_neg hr]
  refine ⟨fs', he, ⟨hrel.sb.trans h.sb, ?_, fun x hx => ?_, fun b hb => ?_, fun i hne => ?_,
    fun k' hk' => ?_⟩, hrel.mem⟩
  · rw [hrel.freed, h.freed, ht, List.append_assoc]
  · rw [hrel.disk x (by rw [h.sb]; exact hx _ hrange.2), h.disk x hx]
  · rw [hrel.bits b, h.bits b hb, ht, ← Bool.and_assoc, ← Bool.decide_and]
    congr 1
    refine decide_eq_decide.mpr ?_
    rw [List.mem_append, List.mem_singleton, not_or, and_comm, ne_comm]
  · rw [hrel.mem, h.mem i hne]
  · rcases List.mem_append.mp hk' with hm | hm
    · exact h.bound k' hm
    · rwa [List.mem_singleton.mp hm]

theorem skip_all {ks' : List ℕ} (h : Freeing fs₀ fs inum ks)
    (hz : ∀ k ∈ ks', k < NSLOT ∧ fs₀.ref inum k = 0) : Freeing fs₀ fs inum (ks ++ ks') := by
  induction ks' generalizing ks with
  | nil => rwa [List.append_nil]
  | cons k ks' ih =>
    obtain ⟨hk, hr⟩ := hz k List.mem_cons_self
    rw [List.append_cons]
    exact ih (h.skip hk hr) fun k' hk' => hz k' (List.mem_cons_of_mem _ hk')

theorem ip_other (h : Freeing fs₀ fs inum ks) (h₀ : Alloc fs₀ []) (hi : i < fs₀.sb.ninodes)
    (hne : i ≠ inum) : fs.dinode i = fs₀.dinode i ∧ fs.ip i = fs₀.ip i :=
  Store.ip_congr h.sb (h.mem i hne) (h.inodes h₀ hi)

theorem ref_other (h : Freeing fs₀ fs inum ks) (h₀ : Alloc fs₀ []) (hi : i < fs₀.sb.ninodes)
    (hne : i ≠ inum) (k : ℕ) : fs.ref i k = fs₀.ref i k := by
  refine Store.ref_congr (h.ip_other h₀ hi hne).2 fun hind => h.data h₀ ?_
  rw [← Store.ref_direct fs₀ le_rfl] at hind ⊢
  exact (h₀.range i hi _ ndirect_lt hind).1

end Freeing

/-! ## `itrunc` -/

/-- The slots, in the order in which `itrunc` frees their blocks. -/
def slots : List ℕ :=
  List.range NDIRECT ++ (List.range NINDIRECT).map (NDIRECT + 1 + ·) ++ [NDIRECT]

theorem mem_slots : k ∈ slots ↔ k < NSLOT := by
  have hd : NDIRECT = 12 := rfl
  have hn : NINDIRECT = 128 := rfl
  have hs : NSLOT = 141 := rfl
  unfold slots
  rw [List.mem_append, List.mem_append, List.mem_range, List.mem_map, List.mem_singleton]
  constructor
  · rintro ((h | ⟨j, hj, rfl⟩) | rfl)
    · omega
    · have := List.mem_range.mp hj
      omega
    · omega
  · intro h
    by_cases h₁ : k < NDIRECT
    · exact .inl (.inl h₁)
    by_cases h₂ : k = NDIRECT
    · exact .inr h₂
    · exact .inl (.inr ⟨k - (NDIRECT + 1), List.mem_range.mpr (by omega), by omega⟩)

theorem slots_nodup : slots.Nodup := by decide +kernel

/-- The first loop of `itrunc`. -/
theorem truncDirect_loop (h : Sound fs) (hi : inum < fs.sb.ninodes)
    (hc : (fs.mem inum).isSome = true) :
    ∃ fs', (List.range NDIRECT).foldlM (truncDirect inum) fs = .ok fs' ∧
      Freeing fs fs' inum (List.range NDIRECT) ∧ (fs'.mem inum).isSome = true ∧
      fs'.ip inum = { fs.ip inum with
        addrs := fun k => if k < NDIRECT then 0 else (fs.ip inum).addrs k } := by
  have hd : NDIRECT = 12 := rfl
  have hs : NSLOT = 141 := rfl
  refine foldlM_range (P := fun n t => Freeing fs t inum (List.range n) ∧
    (t.mem inum).isSome = true ∧ t.ip inum = { fs.ip inum with
      addrs := fun k => if k < n then 0 else (fs.ip inum).addrs k })
    (fun n hn t ⟨hf, hct, hip⟩ => ?_) ⟨.refl fs inum, hc, rfl⟩
  have haddr : (t.ip inum).addrs n = fs.ref inum n := by
    rw [hip, Store.ref_direct fs (by omega)]
    exact if_neg (by omega)
  have hzero : fs.ref inum n = 0 → (fun k => if k < n then 0 else (fs.ip inum).addrs k) =
      fun k => if k < n + 1 then 0 else (fs.ip inum).addrs k := fun hz => by
    funext k
    rw [Store.ref_direct fs (by omega)] at hz
    by_cases hk : k = n
    · rw [hk, if_neg (lt_irrefl n), if_pos (Nat.lt_succ_self n), hz]
    · exact if_congr (by omega) rfl rfl
  unfold truncDirect
  rw [haddr, List.range_succ]
  by_cases hz : fs.ref inum n = 0
  · rw [if_neg (not_not.mpr hz)]
    exact ⟨t, rfl, hf.skip (by omega) hz, hct, by rw [hip, hzero hz]⟩
  · rw [if_pos hz]
    obtain ⟨t', he, hf', hmem⟩ := hf.bfree h.alloc hi (by omega) (by simp) hz
    have hip' : t'.ip inum = t.ip inum := by
      rw [Store.ip, hmem, Store.mem_of_cached hct]
      rfl
    refine ⟨_, by rw [he]; rfl, hf'.setIp _, by rw [Store.setIp_mem]; rfl, ?_⟩
    rw [Store.setIp_ip, hip', hip]
    congr 1
    funext k
    by_cases hk : k = n
    · rw [hk, if_pos (Nat.lt_succ_self n)]
      exact Function.update_self _ _ _
    · rw [if_congr (show k < n + 1 ↔ k < n by omega) rfl rfl]
      exact Function.update_of_ne hk _ _

/-- The second loop of `itrunc`. -/
theorem truncEntry_loop (h : Sound fs) (hi : inum < fs.sb.ninodes)
    (hind : fs.ref inum NDIRECT ≠ 0) (hf : Freeing fs fs' inum (List.range NDIRECT)) :
    ∃ fs'', (List.range NINDIRECT).foldlM (truncEntry (fs.ref inum NDIRECT)) fs' = .ok fs'' ∧
      Freeing fs fs'' inum
        (List.range NDIRECT ++ (List.range NINDIRECT).map (NDIRECT + 1 + ·)) ∧
      fs''.mem = fs'.mem := by
  have hd : NDIRECT = 12 := rfl
  have hn : NINDIRECT = 128 := rfl
  have hs : NSLOT = 141 := rfl
  refine foldlM_range (P := fun n t => Freeing fs t inum
    (List.range NDIRECT ++ (List.range n).map (NDIRECT + 1 + ·)) ∧ t.mem = fs'.mem)
    (fun j hj t ⟨hft, hmem⟩ => ?_) ⟨by simpa using hf, rfl⟩
  have hdir := Store.ref_direct (i := inum) fs le_rfl
  have hentry : getLE (t.disk (fs.ref inum NDIRECT)) (4 * j) 4 = fs.ref inum (NDIRECT + 1 + j) := by
    rw [Store.ref_indirect fs j (hdir ▸ hind), hft.data h.alloc (h.alloc.range inum hi _ ndirect_lt hind).1, hdir]
  have hsucc : (List.range (j + 1)).map (NDIRECT + 1 + ·) =
      (List.range j).map (NDIRECT + 1 + ·) ++ [NDIRECT + 1 + j] := by
    rw [List.range_succ, List.map_append]
    rfl
  rw [hsucc, ← List.append_assoc]
  unfold truncEntry
  rw [hentry]
  by_cases hz : fs.ref inum (NDIRECT + 1 + j) = 0
  · rw [if_neg (not_not.mpr hz)]
    exact ⟨t, rfl, hft.skip (by omega) hz, hmem⟩
  · rw [if_pos hz]
    have hnew : NDIRECT + 1 + j ∉ List.range NDIRECT ++ (List.range j).map (NDIRECT + 1 + ·) := by
      rw [List.mem_append, List.mem_range, List.mem_map]
      rintro (hlt | ⟨j', hj', he⟩)
      · omega
      · have := List.mem_range.mp hj'
        omega
    obtain ⟨t', he, hf', hmem'⟩ := hft.bfree h.alloc hi (by omega) hnew hz
    exact ⟨t', he, hf', hmem'.trans hmem⟩

/-- **What `itrunc` does**, up to the assignment of the size: it frees every block of the inode once,
and does not panic. -/
theorem itrunc_spec (h : Sound fs) (hi : inum < fs.sb.ninodes)
    (hc : (fs.mem inum).isSome = true) :
    ∃ fs', itrunc inum fs = .ok (iupdate inum (fs'.setIp inum fun r => { r with size := 0 })) ∧
      Freeing fs fs' inum slots ∧ fs'.ip inum = { fs.ip inum with addrs := fun _ => 0 } := by
  have hd : NDIRECT = 12 := rfl
  obtain ⟨fs₁, he₁, hf₁, hc₁, hip₁⟩ := truncDirect_loop h hi hc
  have haddr : (fs₁.ip inum).addrs NDIRECT = fs.ref inum NDIRECT := by
    rw [hip₁, Store.ref_direct fs le_rfl]
    show (if NDIRECT < NDIRECT then 0 else (fs.ip inum).addrs NDIRECT) = _
    exact if_neg (lt_irrefl NDIRECT)
  have hlast := (h.proper inum hi).fits.last
  have hstart : itrunc inum fs = (truncIndirect inum fs₁).map fun fs =>
      iupdate inum (fs.setIp inum fun r => { r with size := 0 }) := by
    unfold itrunc
    rw [he₁]
    rfl
  rw [hstart]
  unfold truncIndirect
  rw [haddr]
  by_cases hz : fs.ref inum NDIRECT = 0
  · rw [if_neg (not_not.mpr hz)]
    refine ⟨fs₁, rfl, ?_, ?_⟩
    · unfold slots
      rw [List.append_assoc]
      refine hf₁.skip_all fun k hk => ?_
      have hkm : k ∈ slots := by
        unfold slots
        rw [List.append_assoc]
        exact List.mem_append_right _ hk
      refine ⟨mem_slots.mp hkm, ?_⟩
      rcases List.mem_append.mp hk with hm | hm
      · obtain ⟨j, -, rfl⟩ := List.mem_map.mp hm
        exact Store.ref_hole fs (by omega) ((Store.ref_direct fs le_rfl).symm.trans hz)
      · rw [List.mem_singleton.mp hm, hz]
    · have haddrs : (fun k => if k < NDIRECT then 0 else (fs.ip inum).addrs k) = fun _ => 0 := by
        funext k
        split_ifs with hk
        · rfl
        · by_cases hk' : k = NDIRECT
          · rw [hk', ← Store.ref_direct fs le_rfl, hz]
          · exact hlast k (by omega)
      rw [hip₁, haddrs]
  · rw [if_pos hz]
    obtain ⟨fs₂, he₂, hf₂, hmem₂⟩ := truncEntry_loop h hi hz hf₁
    have hnew : NDIRECT ∉ List.range NDIRECT ++ (List.range NINDIRECT).map (NDIRECT + 1 + ·) := by
      rw [List.mem_append, List.mem_range, List.mem_map]
      rintro (hlt | ⟨j, -, he⟩)
      · omega
      · omega
    obtain ⟨fs₃, he₃, hf₃, hmem₃⟩ := hf₂.bfree h.alloc hi ndirect_lt hnew hz
    have hip₃ : fs₃.ip inum = fs₁.ip inum := by
      rw [Store.ip, hmem₃, hmem₂, Store.mem_of_cached hc₁]
      rfl
    refine ⟨_, ?_, hf₃.setIp fun r => { r with addrs := Function.update r.addrs NDIRECT 0 }, ?_⟩
    · rw [he₂]
      show ((bfree (fs.ref inum NDIRECT) fs₂).map _).map _ = _
      rw [he₃]
      rfl
    have haddrs : Function.update (fun k => if k < NDIRECT then 0 else (fs.ip inum).addrs k)
        NDIRECT 0 = fun _ => 0 := by
      funext k
      by_cases hk : k = NDIRECT
      · rw [hk, Function.update_self]
      · rw [Function.update_of_ne hk]
        split_ifs with hk'
        · rfl
        · exact hlast k (by omega)
    rw [Store.setIp_ip, hip₃, hip₁]
    show ({ fs.ip inum with addrs := Function.update _ NDIRECT 0 } : Inode) = _
    rw [haddrs]

/-! ## `iput` -/

namespace Freeing

/-- The blocks of the inode are free, and it refers to none. -/
theorem alloc (h : Freeing fs₀ fs inum slots) (h₀ : Alloc fs₀ []) (hi : inum < fs₀.sb.ninodes)
    (hz : ∀ k, (fs.ip inum).addrs k = 0) : Alloc fs [] := by
  have hself : ∀ k, fs.ref inum k = 0 := fun k => by
    unfold Store.ref
    simp only [hz, if_pos, ite_self]
  have href : ∀ i < fs₀.sb.ninodes, ∀ k, fs.ref i k = if i = inum then 0 else fs₀.ref i k := by
    intro i hi' k
    split_ifs with hne
    · rw [hne, hself]
    · exact h.ref_other h₀ hi' hne k
  have hpos := h₀.layout.nmeta_pos
  refine ⟨h.sb ▸ h₀.layout, ?_, ?_, ?_, ?_, by simp, List.nodup_nil⟩
  · rw [readsb_congr (h.super h₀), h.sb, h₀.super]
  · rw [h.sb]
    intro i hi' k hk hr
    rw [href i hi'] at hr ⊢
    split_ifs at hr ⊢ with hne
    · exact absurd rfl hr
    · exact h₀.range i hi' k hk hr
  · rw [h.sb]
    intro i hi' k hk i' hi'' k' hk' he hr
    rw [href i hi'] at he hr
    rw [href i' hi''] at he
    split_ifs at he hr with hne hne'
    · exact absurd rfl hr
    · exact absurd rfl hr
    · exact absurd he hr
    · exact h₀.inj i hi' k hk i' hi'' k' hk' he hr
  · rw [h.sb]
    intro b hb
    rw [h.bits b hb, Bool.and_eq_true, decide_eq_true_iff, h₀.bits b hb]
    constructor
    · rintro ⟨hnot, hm | hl | ⟨i, hi', k, hk, hr⟩⟩
      · exact .inl hm
      · exact absurd hl List.not_mem_nil
      by_cases hb0 : b = 0
      · exact .inl (by omega)
      have hne : i ≠ inum := by
        rintro rfl
        exact hnot (mem_taken.mpr ⟨hb0, k, mem_slots.mpr hk, hr⟩)
      exact .inr (.inr ⟨i, hi', k, hk, by rw [href i hi', if_neg hne, hr]⟩)
    · rintro (hm | hl | ⟨i, hi', k, hk, hr⟩)
      · refine ⟨fun ht => ?_, .inl hm⟩
        obtain ⟨hb0, k, hk, hr⟩ := mem_taken.mp ht
        have hrange := h₀.range inum hi k (mem_slots.mp hk) (by rwa [hr])
        omega
      · exact absurd hl List.not_mem_nil
      rw [href i hi'] at hr
      split_ifs at hr with hne
      · refine ⟨fun ht => (mem_taken.mp ht).1 hr.symm, .inl (by omega)⟩
      · refine ⟨fun ht => ?_, .inr (.inr ⟨i, hi', k, hk, hr⟩)⟩
        obtain ⟨hb0, k', hk', hr'⟩ := mem_taken.mp ht
        exact hne (h₀.inj i hi' k hk inum hi k' (mem_slots.mp hk') (hr.trans hr'.symm)
          (by rwa [hr])).1

end Freeing

theorem Put.evict {r : Inode} (h : Put fs fs' inum r) : Put fs (fs'.evict inum) inum r := by
  refine ⟨h.sb, h.freed, fun i hne => ?_, ?_, h.dinode, h.other, h.disk⟩
  · rw [← h.mem i hne]
    exact Function.update_of_ne hne _ _
  · rw [← h.dinode]
    simp [Store.ip, Store.evict]
    rfl

theorem Put.trans {fs'' : Store} {r r' : Inode} (h : Put fs fs' inum r)
    (h' : Put fs' fs'' inum r') : Put fs fs'' inum r' := by
  refine ⟨h'.sb.trans h.sb, h'.freed.trans h.freed, fun i hi => (h'.mem i hi).trans (h.mem i hi),
    h'.ip, h'.dinode, fun i hi => (h'.other i hi).trans (h.other i hi), fun x hx => ?_⟩
  rw [h'.disk x (by rwa [h.sb]), h.disk x hx]

/-- The last `iput` has freed the inode and its blocks. -/
structure Dropped (fs fs' : Store) (inum : ℕ) : Prop where
  sound : Sound fs'
  sb : fs'.sb = fs.sb
  freed : fs'.freed = fs.freed ++ taken fs inum slots

/-- This is the last reference to an inode without links. -/
def Last (fs : Store) (inum ref : ℕ) : Prop :=
  (fs.mem inum).isSome = true ∧ (fs.ip inum).nlink = 0 ∧ ref = 1

/-- **What `iput` does.** It frees the inode if this was the last reference and there are no links,
and does not panic. -/
theorem iput_spec (h : Sound fs) (hi : inum < fs.sb.ninodes) (ref : ℕ) :
    ¬ Last fs inum ref ∧ iput inum ref fs = .ok fs ∨
    Last fs inum ref ∧ ∃ fs', iput inum ref fs = .ok fs' ∧ Dropped fs fs' inum := by
  unfold iput Last
  cases hm : fs.mem inum with
  | none => exact .inl ⟨fun hl => absurd hl.1 (by decide), rfl⟩
  | some r =>
    simp only
    split_ifs with hlast
    · have hc : (fs.mem inum).isSome = true := by
        rw [hm]
        rfl
      obtain ⟨fs₁, he, hf, hip⟩ := itrunc_spec h hi hc
      have hfit := (h.proper inum hi).fits
      have hzero : ∀ k, (fs₁.ip inum).addrs k = 0 := fun k => by rw [hip]
      have h₁ := hf.alloc h.alloc hi hzero
      have hi₁ : inum < fs₁.sb.ninodes := by rwa [hf.sb]
      have h16 : 0 < 2 ^ 16 := by decide
      have h32 : 0 < 2 ^ 32 := by decide
      have hfit₁ : Fits { fs₁.ip inum with size := 0 } := by
        rw [hip]
        exact ⟨hfit.type, hfit.major, hfit.minor, hfit.nlink, h32, fun _ => h32, fun _ _ => rfl⟩
      obtain ⟨hp₁, -⟩ := update_put (fun r => { r with size := 0 }) hfit₁
      generalize iupdate inum (fs₁.setIp inum fun r => { r with size := 0 }) = fs₂ at *
      have hfit₂ : Fits { fs₂.ip inum with type := 0 } := by
        rw [hp₁.ip]
        exact ⟨h16, hfit₁.major, hfit₁.minor, hfit₁.nlink, h32, hfit₁.addrs, hfit₁.last⟩
      obtain ⟨hp₂, -⟩ := update_put (fun r => { r with type := 0 }) hfit₂
      have hp := (hp₁.trans hp₂).evict
      have hr : (fs₂.ip inum).addrs = (fs₁.ip inum).addrs := by rw [hp₁.ip]
      refine .inr ⟨⟨rfl, by rw [Store.ip_of_mem hm]; exact hlast.1, hlast.2⟩, _, by rw [he]; rfl, ?_⟩
      refine ⟨?_, hp.sb.trans hf.sb, hp.freed.trans hf.freed⟩
      have hsize : (fs₂.ip inum).size = 0 := by rw [hp₁.ip]
      refine hp.sound h₁ hi₁ hr hfit₂ (hsize.trans_le (Nat.zero_le _)) (fun o ho => ?_)
        (fun _ => ⟨Function.update_self _ _ _, ?_⟩) fun i hi' hne => ?_
      · exact absurd (ho.trans_eq hsize) (Nat.not_lt_zero o)
      · show ∀ k, (fs₂.ip inum).addrs k = 0
        rw [hr]
        exact hzero
      · rw [hf.sb] at hi'
        obtain ⟨hdi, hip'⟩ := hf.ip_other h.alloc hi' hne
        exact (h.proper i hi').congr hip' hdi (hf.mem i hne) fun k _ _ =>
          hf.ref_other h.alloc hi' hne k
    · rw [Store.ip_of_mem hm]
      exact .inl ⟨fun hl => hlast hl.2, rfl⟩

end Fs

end OsPlayground
