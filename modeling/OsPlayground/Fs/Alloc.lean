import Mathlib.Data.Finset.Card
import Mathlib.Data.Finset.Range
import Mathlib.Data.List.Nodup
import OsPlayground.Fs.Model

/-!
# The blocks of the inodes

* `Layout`: the order of the areas on the disk.
* `slotOf`, `Store.ref`: the slots of an inode (12 direct ones, the indirect block, its entries) and
  the block that each refers to.
* **`Alloc`**: no block is in two slots, and the free map marks the metadata, the blocks in slots and
  the blocks `loose` that are allocated and not in a slot yet.
* `Taken`, **`balloc_cases`**: what `balloc` does.
* `Alloc.take`, `Alloc.attach`, `Alloc.same`: how the invariant changes.
-/

namespace OsPlayground

namespace Fs

open Lib

/-- The number of slots of an inode. -/
abbrev NSLOT : ℕ := NDIRECT + 1 + NINDIRECT

/-- The slot of the block `bn` of a file. -/
def slotOf (bn : ℕ) : ℕ := if bn < NDIRECT then bn else bn + 1

/-- The number of blocks before the data blocks. -/
def nmeta (sb : Superblock) : ℕ := sb.size - sb.nblocks

/-- Superblock, inode blocks, free map and data blocks, in this order. -/
structure Layout (sb : Superblock) : Prop where
  inodes : ∀ i < sb.ninodes, 1 < IBLOCK i sb ∧ IBLOCK i sb < sb.bmapstart
  start : 1 < sb.bmapstart ∧ sb.bmapstart ≤ nmeta sb
  bitmap : ∀ b < sb.size, BBLOCK b sb < nmeta sb
  size : sb.size < 2 ^ 31

namespace Store

/-- The block in the slot `k` of the inode, 0 if there is none. -/
def ref (fs : Store) (i k : ℕ) : ℕ :=
  if k ≤ NDIRECT then (fs.ip i).addrs k
  else if (fs.ip i).addrs NDIRECT = 0 then 0
  else getLE (fs.disk ((fs.ip i).addrs NDIRECT)) (4 * (k - NDIRECT - 1)) 4

end Store

variable {fs fs' : Store} {b x i k : ℕ} {loose : List ℕ}

theorem Store.ref_direct (fs : Store) (hk : k ≤ NDIRECT) : fs.ref i k = (fs.ip i).addrs k := if_pos hk

theorem Store.ref_indirect (fs : Store) (j : ℕ) (h : (fs.ip i).addrs NDIRECT ≠ 0) :
    fs.ref i (NDIRECT + 1 + j) = getLE (fs.disk ((fs.ip i).addrs NDIRECT)) (4 * j) 4 := by
  have hj : NDIRECT + 1 + j - NDIRECT - 1 = j := by omega
  rw [Store.ref, if_neg (by omega), if_neg h, hj]

theorem Store.ref_hole (fs : Store) (hk : NDIRECT < k) (h : (fs.ip i).addrs NDIRECT = 0) :
    fs.ref i k = 0 := by
  rw [Store.ref, if_neg (by omega), if_pos h]

theorem Store.ref_congr_addrs (ha : (fs'.ip i).addrs = (fs.ip i).addrs)
    (hind : (fs.ip i).addrs NDIRECT ≠ 0 →
      fs'.disk ((fs.ip i).addrs NDIRECT) = fs.disk ((fs.ip i).addrs NDIRECT)) :
    fs'.ref i k = fs.ref i k := by
  unfold Store.ref
  rw [ha]
  split_ifs with h₁ h₂
  · rfl
  · rfl
  · rw [hind h₂]

theorem Store.ref_congr (hip : fs'.ip i = fs.ip i) (hind : (fs.ip i).addrs NDIRECT ≠ 0 →
    fs'.disk ((fs.ip i).addrs NDIRECT) = fs.disk ((fs.ip i).addrs NDIRECT)) :
    fs'.ref i k = fs.ref i k := Store.ref_congr_addrs (by rw [hip]) hind

/-- **The invariant of the allocator.** -/
structure Alloc (fs : Store) (loose : List ℕ) : Prop where
  layout : Layout fs.sb
  super : readsb fs.disk = fs.sb
  range : ∀ i < fs.sb.ninodes, ∀ k < NSLOT, fs.ref i k ≠ 0 →
    nmeta fs.sb ≤ fs.ref i k ∧ fs.ref i k < fs.sb.size
  inj : ∀ i < fs.sb.ninodes, ∀ k < NSLOT, ∀ i' < fs.sb.ninodes, ∀ k' < NSLOT,
    fs.ref i k = fs.ref i' k' → fs.ref i k ≠ 0 → i = i' ∧ k = k'
  bits : ∀ b < fs.sb.size, fs.bit b = true ↔
    b < nmeta fs.sb ∨ b ∈ loose ∨ ∃ i < fs.sb.ninodes, ∃ k < NSLOT, fs.ref i k = b
  unused : ∀ b ∈ loose, (nmeta fs.sb ≤ b ∧ b < fs.sb.size) ∧
    ∀ i < fs.sb.ninodes, ∀ k < NSLOT, fs.ref i k ≠ b
  nodup : loose.Nodup

/-! ## The areas of the disk -/

namespace Layout

variable {sb : Superblock}

theorem nmeta_pos (h : Layout sb) : 0 < nmeta sb := by
  have := h.start
  omega

theorem bblock (h : Layout sb) (hb : b < sb.size) : BBLOCK b sb ≠ 1 ∧ BBLOCK b sb < nmeta sb ∧
    ∀ i < sb.ninodes, IBLOCK i sb ≠ BBLOCK b sb := by
  have hle : sb.bmapstart ≤ BBLOCK b sb := Nat.le_add_left _ _
  refine ⟨?_, h.bitmap b hb, fun i hi => ?_⟩
  · have := h.start
    omega
  · have := h.inodes i hi
    omega

theorem data (h : Layout sb) (hb : nmeta sb ≤ b) : b ≠ 1 ∧ (∀ x < sb.size, b ≠ BBLOCK x sb) ∧
    ∀ i < sb.ninodes, IBLOCK i sb ≠ b := by
  have hstart := h.start
  refine ⟨by omega, fun x hx => ?_, fun i hi => ?_⟩
  · have := h.bitmap x hx
    omega
  · have := h.inodes i hi
    omega

end Layout

theorem readsb_congr {d d' : ℕ → Bytes} (h : d' 1 = d 1) : readsb d' = readsb d := by
  unfold readsb
  rw [h]

theorem Store.ip_congr (hsb : fs'.sb = fs.sb) (hmem : fs'.mem i = fs.mem i)
    (hd : fs'.disk (IBLOCK i fs.sb) = fs.disk (IBLOCK i fs.sb)) :
    fs'.dinode i = fs.dinode i ∧ fs'.ip i = fs.ip i := by
  have hdi : fs'.dinode i = fs.dinode i := by
    unfold Store.dinode
    rw [hsb, hd]
  exact ⟨hdi, by rw [Store.ip, Store.ip, hmem, hdi]⟩

namespace Alloc

theorem bit_ref (h : Alloc fs loose) (hi : i < fs.sb.ninodes) (hk : k < NSLOT)
    (hr : fs.ref i k ≠ 0) : fs.bit (fs.ref i k) = true :=
  (h.bits _ (h.range i hi k hk hr).2).mpr (.inr (.inr ⟨i, hi, k, hk, rfl⟩))

theorem of_bit_false (h : Alloc fs loose) (hb : b < fs.sb.size) (hf : fs.bit b = false) :
    nmeta fs.sb ≤ b ∧ b ∉ loose ∧ ∀ i < fs.sb.ninodes, ∀ k < NSLOT, fs.ref i k ≠ b := by
  have hn := mt (h.bits b hb).mpr (by rw [hf]; decide)
  rw [not_or, not_or] at hn
  exact ⟨not_lt.mp hn.1, hn.2.1, fun i hi k hk hr => hn.2.2 ⟨i, hi, k, hk, hr⟩⟩

/-- Nothing that the invariant reads changes. -/
theorem same (h : Alloc fs loose) (hsb : fs'.sb = fs.sb) (hsuper : fs'.disk 1 = fs.disk 1)
    (href : ∀ i < fs.sb.ninodes, ∀ k < NSLOT, fs'.ref i k = fs.ref i k)
    (hbits : ∀ b < fs.sb.size, fs'.bit b = fs.bit b) : Alloc fs' loose := by
  refine ⟨hsb ▸ h.layout, ?_, ?_, ?_, ?_, ?_, h.nodup⟩
  · rw [readsb_congr hsuper, hsb, h.super]
  · rw [hsb]
    intro i hi k hk hr
    rw [href i hi k hk] at hr ⊢
    exact h.range i hi k hk hr
  · rw [hsb]
    intro i hi k hk i' hi' k' hk' he hr
    rw [href i hi k hk, href i' hi' k' hk'] at he
    rw [href i hi k hk] at hr
    exact h.inj i hi k hk i' hi' k' hk' he hr
  · rw [hsb]
    intro b hb
    rw [hbits b hb, h.bits b hb]
    refine or_congr_right (or_congr_right ⟨?_, ?_⟩)
    · rintro ⟨i, hi, k, hk, hr⟩
      exact ⟨i, hi, k, hk, by rw [href i hi k hk, hr]⟩
    · rintro ⟨i, hi, k, hk, hr⟩
      exact ⟨i, hi, k, hk, by rw [← href i hi k hk, hr]⟩
  · rw [hsb]
    intro b hb
    refine ⟨(h.unused b hb).1, fun i hi k hk => ?_⟩
    rw [href i hi k hk]
    exact (h.unused b hb).2 i hi k hk

/-- A free block is marked. -/
theorem take (h : Alloc fs loose) (hsb : fs'.sb = fs.sb) (hsuper : fs'.disk 1 = fs.disk 1)
    (href : ∀ i < fs.sb.ninodes, ∀ k < NSLOT, fs'.ref i k = fs.ref i k) (hb : b < fs.sb.size)
    (hfree : fs.bit b = false)
    (hbits : ∀ x < fs.sb.size, fs'.bit x = (decide (x = b) || fs.bit x)) :
    Alloc fs' (b :: loose) := by
  obtain ⟨hmeta, hloose, hnone⟩ := h.of_bit_false hb hfree
  refine ⟨hsb ▸ h.layout, ?_, ?_, ?_, ?_, ?_, List.nodup_cons.mpr ⟨hloose, h.nodup⟩⟩
  · rw [readsb_congr hsuper, hsb, h.super]
  · rw [hsb]
    intro i hi k hk hr
    rw [href i hi k hk] at hr ⊢
    exact h.range i hi k hk hr
  · rw [hsb]
    intro i hi k hk i' hi' k' hk' he hr
    rw [href i hi k hk, href i' hi' k' hk'] at he
    rw [href i hi k hk] at hr
    exact h.inj i hi k hk i' hi' k' hk' he hr
  · rw [hsb]
    intro x hx
    have hex : (∃ i < fs.sb.ninodes, ∃ k < NSLOT, fs'.ref i k = x) ↔
        ∃ i < fs.sb.ninodes, ∃ k < NSLOT, fs.ref i k = x := by
      refine ⟨?_, ?_⟩
      · rintro ⟨i, hi, k, hk, hr⟩
        exact ⟨i, hi, k, hk, by rw [← href i hi k hk, hr]⟩
      · rintro ⟨i, hi, k, hk, hr⟩
        exact ⟨i, hi, k, hk, by rw [href i hi k hk, hr]⟩
    rw [hbits x hx, Bool.or_eq_true, decide_eq_true_iff, h.bits x hx, hex, List.mem_cons,
      or_left_comm, or_assoc]
  · rw [hsb]
    intro x hx
    rcases List.mem_cons.mp hx with rfl | hx
    · refine ⟨⟨hmeta, hb⟩, fun i hi k hk => ?_⟩
      rw [href i hi k hk]
      exact hnone i hi k hk
    · refine ⟨(h.unused x hx).1, fun i hi k hk => ?_⟩
      rw [href i hi k hk]
      exact (h.unused x hx).2 i hi k hk

/-- A loose block is put into an empty slot. -/
theorem attach {i₀ k₀ : ℕ} (h : Alloc fs (b :: loose)) (hsb : fs'.sb = fs.sb)
    (hsuper : fs'.disk 1 = fs.disk 1) (hi₀ : i₀ < fs.sb.ninodes) (hk₀ : k₀ < NSLOT)
    (hzero : fs.ref i₀ k₀ = 0)
    (href : ∀ i < fs.sb.ninodes, ∀ k < NSLOT,
      fs'.ref i k = if i = i₀ ∧ k = k₀ then b else fs.ref i k)
    (hbits : ∀ x < fs.sb.size, fs'.bit x = fs.bit x) : Alloc fs' loose := by
  obtain ⟨hb, hnone⟩ := h.unused b List.mem_cons_self
  obtain ⟨hbl, hnodup⟩ := List.nodup_cons.mp h.nodup
  have hself : fs'.ref i₀ k₀ = b := by rw [href i₀ hi₀ k₀ hk₀, if_pos ⟨rfl, rfl⟩]
  have hother : ∀ i < fs.sb.ninodes, ∀ k < NSLOT, ¬ (i = i₀ ∧ k = k₀) →
      fs'.ref i k = fs.ref i k := fun i hi k hk hne => by rw [href i hi k hk, if_neg hne]
  have hpos := h.layout.nmeta_pos
  refine ⟨hsb ▸ h.layout, ?_, ?_, ?_, ?_, ?_, hnodup⟩
  · rw [readsb_congr hsuper, hsb, h.super]
  · rw [hsb]
    intro i hi k hk hr
    by_cases hik : i = i₀ ∧ k = k₀
    · obtain ⟨rfl, rfl⟩ := hik
      rwa [hself]
    · rw [hother i hi k hk hik] at hr ⊢
      exact h.range i hi k hk hr
  · rw [hsb]
    intro i hi k hk i' hi' k' hk' he hr
    by_cases hik : i = i₀ ∧ k = k₀ <;> by_cases hik' : i' = i₀ ∧ k' = k₀
    · exact ⟨hik.1.trans hik'.1.symm, hik.2.trans hik'.2.symm⟩
    · obtain ⟨rfl, rfl⟩ := hik
      rw [hself, hother i' hi' k' hk' hik'] at he
      exact absurd he.symm (hnone i' hi' k' hk')
    · obtain ⟨rfl, rfl⟩ := hik'
      rw [hself, hother i hi k hk hik] at he
      exact absurd he (hnone i hi k hk)
    · rw [hother i hi k hk hik, hother i' hi' k' hk' hik'] at he
      rw [hother i hi k hk hik] at hr
      exact h.inj i hi k hk i' hi' k' hk' he hr
  · rw [hsb]
    intro x hx
    rw [hbits x hx, h.bits x hx, List.mem_cons, or_assoc]
    by_cases hm : x < nmeta fs.sb
    · exact iff_of_true (.inl hm) (.inl hm)
    refine or_congr_right ?_
    constructor
    · rintro (rfl | hl | ⟨i, hi, k, hk, hr⟩)
      · exact .inr ⟨i₀, hi₀, k₀, hk₀, hself⟩
      · exact .inl hl
      · have hik : ¬ (i = i₀ ∧ k = k₀) := by
          rintro ⟨rfl, rfl⟩
          omega
        exact .inr ⟨i, hi, k, hk, by rw [hother i hi k hk hik, hr]⟩
    · rintro (hl | ⟨i, hi, k, hk, hr⟩)
      · exact .inr (.inl hl)
      · by_cases hik : i = i₀ ∧ k = k₀
        · obtain ⟨rfl, rfl⟩ := hik
          exact .inl (hr.symm.trans hself)
        · exact .inr (.inr ⟨i, hi, k, hk, by rw [← hother i hi k hk hik, hr]⟩)
  · rw [hsb]
    intro x hx
    obtain ⟨hx', hn⟩ := h.unused x (List.mem_cons_of_mem _ hx)
    refine ⟨hx', fun i hi k hk => ?_⟩
    by_cases hik : i = i₀ ∧ k = k₀
    · obtain ⟨rfl, rfl⟩ := hik
      rw [hself]
      rintro rfl
      exact hbl hx
    · rw [hother i hi k hk hik]
      exact hn i hi k hk

end Alloc

/-! ## Allocating and freeing a block -/

theorem BPB_eq : BPB = 4096 := rfl

theorem bblock_eq {b x : ℕ} {sb : Superblock} (h : BBLOCK x sb = BBLOCK b sb)
    (hm : b % BPB = x % BPB) : x = b := by
  have hdiv : x / BPB = b / BPB := Nat.add_right_cancel h
  rw [BPB_eq] at hdiv hm
  omega

theorem freeBlock_some (h : freeBlock fs = some b) : b < fs.sb.size ∧ fs.bit b = false := by
  obtain ⟨j, -, hj⟩ := List.exists_of_findSome?_eq_some h
  obtain ⟨bi, hbi, rfl⟩ := Option.map_eq_some_iff.mp hj
  have hlt := List.mem_range.mp (List.mem_of_find?_eq_some hbi)
  have hcond := List.find?_some hbi
  rw [Bool.and_eq_true, decide_eq_true_iff, Bool.not_eq_true'] at hcond
  rw [BPB_eq] at hlt
  have hdiv : (j * BPB + bi) / BPB = j * BPB / BPB := by
    rw [BPB_eq]
    omega
  have hmod : (j * BPB + bi) % BPB = bi := by
    rw [BPB_eq]
    omega
  refine ⟨hcond.1, ?_⟩
  unfold Store.bit BBLOCK
  rw [hdiv, hmod]
  exact hcond.2

theorem freeBlock_none (h : freeBlock fs = none) (hb : b < fs.sb.size) : fs.bit b = true := by
  have hj : b / BPB ∈ List.range ((fs.sb.size + BPB - 1) / BPB) := by
    rw [List.mem_range, BPB_eq]
    omega
  have hnone := List.findSome?_eq_none_iff.mp h _ hj
  rw [Option.map_eq_none_iff, List.find?_eq_none] at hnone
  have hbi := hnone (b % BPB) (List.mem_range.mpr (Nat.mod_lt _ (by decide)))
  have hb' : b / BPB * BPB + b % BPB = b := Nat.div_add_mod' b BPB
  have hdiv : b / BPB * BPB / BPB = b / BPB := by
    rw [BPB_eq]
    omega
  rw [hb', decide_eq_true hb, Bool.true_and, Bool.not_eq_true', Bool.not_eq_false] at hbi
  unfold Store.bit BBLOCK
  unfold BBLOCK at hbi
  rwa [hdiv] at hbi

/-- `balloc` has taken the block `b`. -/
structure Taken (fs fs' : Store) (b : ℕ) : Prop where
  lt : b < fs.sb.size
  free : fs.bit b = false
  sb : fs'.sb = fs.sb
  mem : fs'.mem = fs.mem
  freed : fs'.freed = fs.freed
  disk : ∀ x, x ≠ b → x ≠ BBLOCK b fs.sb → fs'.disk x = fs.disk x
  zero : fs'.disk b = fun _ => 0
  bits : ∀ x < fs.sb.size, fs'.bit x = (decide (x = b) || fs.bit x)

/-- **What `balloc` does.** It marks and clears a free block, or every block is marked. -/
theorem balloc_cases (h : Alloc fs loose) :
    balloc fs = .error "balloc: out of blocks" ∧ (∀ b < fs.sb.size, fs.bit b = true) ∨
      ∃ b fs', balloc fs = .ok (b, fs') ∧ Taken fs fs' b := by
  unfold balloc
  cases hf : freeBlock fs with
  | none => exact .inl ⟨rfl, fun b hb => freeBlock_none hf hb⟩
  | some b =>
    obtain ⟨hb, hfree⟩ := freeBlock_some hf
    obtain ⟨hmeta, -, -⟩ := h.of_bit_false hb hfree
    refine .inr ⟨b, _, rfl, hb, hfree, rfl, rfl, rfl, fun x hx hB => ?_, ?_, fun x hx => ?_⟩
    · simp [bzero, Store.write, hx, hB]
    · simp [bzero, Store.write]
    · have hxb : BBLOCK x fs.sb ≠ b := ((h.layout.data hmeta).2.1 x hx).symm
      unfold Store.bit
      simp only [bzero, Store.write, Function.update_of_ne hxb]
      by_cases hB : BBLOCK x fs.sb = BBLOCK b fs.sb
      · rw [hB, Function.update_self, getBit_setBit]
        congr 1
        exact decide_eq_decide.mpr ⟨bblock_eq hB, fun he => by rw [he]⟩
      · have hne : x ≠ b := fun he => hB (by rw [he])
        rw [Function.update_of_ne hB, decide_eq_false hne, Bool.false_or]

namespace Taken

variable {b : ℕ}

theorem data (h : Alloc fs loose) (ht : Taken fs fs' b) : nmeta fs.sb ≤ b ∧ b ∉ loose ∧
    ∀ i < fs.sb.ninodes, ∀ k < NSLOT, fs.ref i k ≠ b := h.of_bit_false ht.lt ht.free

theorem other (h : Alloc fs loose) (ht : Taken fs fs' b) : fs'.disk 1 = fs.disk 1 ∧
    (∀ i < fs.sb.ninodes, fs'.disk (IBLOCK i fs.sb) = fs.disk (IBLOCK i fs.sb)) ∧
      ∀ x, nmeta fs.sb ≤ x → x ≠ b → fs'.disk x = fs.disk x := by
  have hb := h.layout.data (ht.data h).1
  have hB := h.layout.bblock ht.lt
  refine ⟨ht.disk 1 hb.1.symm hB.1.symm, fun i hi => ht.disk _ (hb.2.2 i hi) (hB.2.2 i hi),
    fun x hx hxb => ht.disk x hxb ?_⟩
  exact (h.layout.data hx).2.1 b ht.lt

theorem ip (h : Alloc fs loose) (ht : Taken fs fs' b) (hi : i < fs.sb.ninodes) :
    fs'.dinode i = fs.dinode i ∧ fs'.ip i = fs.ip i :=
  Store.ip_congr ht.sb (congrFun ht.mem i) ((ht.other h).2.1 i hi)

theorem ref (h : Alloc fs loose) (ht : Taken fs fs' b) (hi : i < fs.sb.ninodes) (k : ℕ) :
    fs'.ref i k = fs.ref i k := by
  refine Store.ref_congr (ht.ip h hi).2 fun hind => ?_
  have hr : fs.ref i NDIRECT = (fs.ip i).addrs NDIRECT := Store.ref_direct fs le_rfl
  have hlt : NDIRECT < NSLOT := by decide
  have hrange := h.range i hi NDIRECT hlt (by rwa [hr])
  have hne := (ht.data h).2.2 i hi NDIRECT hlt
  rw [hr] at hrange hne
  exact (ht.other h).2.2 _ hrange.1 hne

theorem alloc (h : Alloc fs loose) (ht : Taken fs fs' b) : Alloc fs' (b :: loose) :=
  h.take ht.sb (ht.other h).1 (fun _ hi _ _ => ht.ref h hi _) ht.lt ht.free ht.bits

end Taken

end Fs

end OsPlayground
