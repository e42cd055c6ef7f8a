import OsPlayground.Lib.Round
import OsPlayground.Umalloc.Model

/-!
# Blocks and the free list

* `Block`, `Laid`: the blocks, free or not, fill the memory obtained from `sbrk`.
* `Inv`: the free list is a circle through `base` and the free blocks in the order of their addresses,
  and no two free blocks are adjacent.
* **`free_spec`**: `free` keeps it.
-/

namespace OsPlayground

namespace Umalloc

open Lib

/-- A block with its header. -/
structure Block where
  addr : ℕ
  /-- The size in units, with the header. -/
  units : ℕ
  free : Bool
  deriving DecidableEq

/-- The blocks fill the memory from `lo` to `hi`. -/
def Laid : ℕ → List Block → ℕ → Prop
  | lo, [], hi => lo = hi
  | lo, t :: ts, hi => t.addr = lo ∧ 0 < t.units ∧ Laid (lo + 8 * t.units) ts hi

/-- The addresses of the free blocks. -/
def frees (ts : List Block) : List ℕ := (ts.filter fun t => t.free).map Block.addr

section Blocks

variable {ts ts₁ ts₂ : List Block} {t : Block} {lo mid hi x : ℕ}

theorem laid_append : Laid lo (ts₁ ++ ts₂) hi ↔ ∃ mid, Laid lo ts₁ mid ∧ Laid mid ts₂ hi := by
  induction ts₁ generalizing lo with
  | nil =>
    constructor
    · exact fun h => ⟨lo, rfl, h⟩
    · rintro ⟨mid, rfl, h⟩
      exact h
  | cons t ts₁ ih =>
    constructor
    · rintro ⟨h, hpos, htl⟩
      obtain ⟨mid, h₁, h₂⟩ := ih.1 htl
      exact ⟨mid, ⟨h, hpos, h₁⟩, h₂⟩
    · rintro ⟨mid, ⟨h, hpos, h₁⟩, h₂⟩
      exact ⟨h, hpos, ih.2 ⟨mid, h₁, h₂⟩⟩

theorem laid_le (h : Laid lo ts hi) : lo ≤ hi := by
  induction ts generalizing lo with
  | nil => exact h.le
  | cons t ts ih =>
    have htl := ih h.2.2
    omega

theorem laid_mem (h : Laid lo ts hi) (ht : t ∈ ts) : lo ≤ t.addr ∧ t.addr + 8 * t.units ≤ hi ∧ 0 < t.units := by
  induction ts generalizing lo with
  | nil => cases ht
  | cons s ts ih =>
    obtain ⟨hs, hpos, htl⟩ := h
    rcases List.mem_cons.1 ht with rfl | ht
    · have hle := laid_le htl
      exact ⟨hs.ge, by omega, hpos⟩
    · have hm := ih htl ht
      exact ⟨by omega, hm.2⟩

theorem frees_append (ts₁ ts₂ : List Block) : frees (ts₁ ++ ts₂) = frees ts₁ ++ frees ts₂ := by
  rw [frees, List.filter_append, List.map_append]
  rfl

theorem frees_free (h : t.free = true) (ts : List Block) : frees (t :: ts) = t.addr :: frees ts := by
  rw [frees, List.filter_cons_of_pos h]
  rfl

theorem frees_live (h : t.free = false) (ts : List Block) : frees (t :: ts) = frees ts := by
  rw [frees, List.filter_cons_of_neg (by simp [h])]
  rfl

theorem mem_frees : x ∈ frees ts ↔ ∃ t ∈ ts, t.free = true ∧ t.addr = x := by
  simp only [frees, List.mem_map, List.mem_filter, and_assoc]

theorem frees_bounds (h : Laid lo ts hi) (hx : x ∈ frees ts) : lo ≤ x ∧ x + 8 ≤ hi := by
  obtain ⟨t, ht, -, rfl⟩ := mem_frees.1 hx
  have hm := laid_mem h ht
  omega

theorem frees_sorted (h : Laid lo ts hi) : (frees ts).Pairwise (· < ·) := by
  induction ts generalizing lo with
  | nil => exact List.Pairwise.nil
  | cons t ts ih =>
    obtain ⟨ht, hpos, htl⟩ := h
    cases hf : t.free with
    | false =>
      rw [frees_live hf]
      exact ih htl
    | true =>
      rw [frees_free hf]
      refine List.pairwise_cons.2 ⟨fun y hy => ?_, ih htl⟩
      have hb := frees_bounds htl hy
      omega

theorem frees_split {A B : List ℕ} (h : frees ts = A ++ x :: B) : ∃ ts₁ t ts₂, ts = ts₁ ++ t :: ts₂ ∧
    t.addr = x ∧ t.free = true ∧ frees ts₁ = A ∧ frees ts₂ = B := by
  induction ts generalizing A with
  | nil => simp [frees] at h
  | cons t ts ih =>
    cases hf : t.free with
    | false =>
      rw [frees_live hf] at h
      obtain ⟨ts₁, s, ts₂, rfl, hs, hfree, h₁, h₂⟩ := ih h
      exact ⟨t :: ts₁, s, ts₂, rfl, hs, hfree, by rw [frees_live hf, h₁], h₂⟩
    | true =>
      rw [frees_free hf] at h
      rcases A with _ | ⟨y, A⟩
      · obtain ⟨rfl, rfl⟩ := List.cons.inj h
        exact ⟨[], t, ts, rfl, rfl, hf, rfl, rfl⟩
      · obtain ⟨rfl, htl⟩ := List.cons.inj h
        obtain ⟨ts₁, s, ts₂, rfl, hs, hfree, h₁, h₂⟩ := ih htl
        exact ⟨t :: ts₁, s, ts₂, rfl, hs, hfree, by rw [frees_free hf, h₁], h₂⟩

end Blocks

/-! ## The invariant -/

/-- Two blocks that `free` should have merged. -/
def Unmerged (s t : Block) : Prop := s.free = true ∧ t.free = true

/-- The heap consists of the blocks `ts`; `lo` is where the memory obtained from `sbrk` starts. -/
structure Inv (base lo : ℕ) (h : Heap) (ts : List Block) : Prop where
  base_pos : 0 < base
  base_le : base + 8 ≤ lo
  top : h.brk < 2 ^ 31
  laid : Laid lo ts h.brk
  sizes : ∀ t ∈ ts, h.size t.addr = t.units
  base_size : h.size base = 0
  round : Round h.ptr base (frees ts)
  freep : h.freep ∈ base :: frees ts
  merged : ts.IsChain fun s t => ¬ Unmerged s t

section Access

variable {h : Heap} {a v : ℕ}

theorem getPtr_ok (ha : a + 8 ≤ h.brk) : h.getPtr a = .ok (h.ptr a) := if_pos ha

theorem getSize_ok (ha : a + 8 ≤ h.brk) : h.getSize a = .ok (h.size a) := if_pos ha

theorem setPtr_ok (ha : a + 8 ≤ h.brk) : h.setPtr a v = .ok { h with ptr := Function.update h.ptr a v } := if_pos ha

theorem setSize_ok (ha : a + 8 ≤ h.brk) : h.setSize a v = .ok { h with size := Function.update h.size a v } :=
  if_pos ha

theorem plus_eq {p n : ℕ} (hp : p + 8 * n < 2 ^ 31) : plus p n = p + 8 * n := Nat.mod_eq_of_lt (by omega)

end Access

section Free

variable {base lo p : ℕ} {h : Heap} {t : Block} {ts ts₁ ts₂ : List Block} {l₁ : List ℕ}

theorem Inv.access (hi : Inv base lo h ts) {x : ℕ} (hx : x ∈ base :: frees ts) : x + 8 ≤ h.brk := by
  have hle := laid_le hi.laid
  have hb := hi.base_le
  rcases List.mem_cons.1 hx with rfl | hx
  · omega
  · exact (frees_bounds hi.laid hx).2

theorem Inv.sorted (hi : Inv base lo h ts) : (base :: frees ts).Pairwise (· < ·) := by
  refine List.pairwise_cons.2 ⟨fun x hx => ?_, frees_sorted hi.laid⟩
  have hb := frees_bounds hi.laid hx
  have hbase := hi.base_le
  omega

theorem Inv.around (hi : Inv base lo h (ts₁ ++ t :: ts₂)) : Laid lo ts₁ t.addr ∧
    Laid (t.addr + 8 * t.units) ts₂ h.brk ∧ 0 < t.units ∧ t.addr + 8 * t.units ≤ h.brk := by
  obtain ⟨mid, h₁, rfl, hpos, h₂⟩ := laid_append.1 hi.laid
  exact ⟨h₁, h₂, hpos, laid_le h₂⟩

/-! ## The search -/

/-- The loop of `free` goes round until its condition holds. -/
theorem freeLoop_walk {bp q k : ℕ} {l : List ℕ} (hc : (p :: l).IsChain fun x y => h.ptr x = y)
    (hq : q ∈ p :: l) (hk : l.length < k) (hacc : ∀ x ∈ p :: l, x + 8 ≤ h.brk)
    (hstop : ∀ x ∈ p :: l, (bp > x ∧ bp < h.ptr x ∨ x ≥ h.ptr x ∧ (bp > x ∨ bp < h.ptr x)) ↔ x = q) :
    freeLoop h bp k p = .ok q := by
  induction l generalizing p k with
  | nil =>
    obtain ⟨k, rfl⟩ := Nat.exists_eq_succ_of_ne_zero (Nat.ne_of_gt hk)
    obtain rfl : q = p := List.mem_singleton.1 hq
    rw [freeLoop, getPtr_ok (hacc q hq)]
    change (if _ then _ else if _ then _ else _) = _
    rcases (hstop q hq).2 rfl with hs | hs
    · rw [if_pos hs]
      rfl
    · rw [if_pos hs, ite_self]
      rfl
  | cons y l ih =>
    obtain ⟨k, rfl⟩ := Nat.exists_eq_succ_of_ne_zero (Nat.ne_of_gt (Nat.zero_lt_of_lt hk))
    obtain ⟨hy, hc⟩ := List.isChain_cons_cons.1 hc
    have hp := List.mem_cons_self (a := p) (l := y :: l)
    rw [freeLoop, getPtr_ok (hacc p hp)]
    change (if _ then _ else if _ then _ else _) = _
    by_cases hpq : p = q
    · rcases (hstop p hp).2 hpq with hs | hs
      · rw [if_pos hs, hpq]
        rfl
      · rw [if_pos hs, ite_self, hpq]
        rfl
    · have hno := mt (hstop p hp).1 hpq
      rw [not_or] at hno
      rw [if_neg hno.1, if_neg hno.2, hy]
      exact ih hc ((List.mem_cons.1 hq).resolve_left (Ne.symm hpq)) (Nat.lt_of_succ_lt_succ hk)
        (fun x hx => hacc x (List.mem_cons_of_mem p hx)) fun x hx => hstop x (List.mem_cons_of_mem p hx)

/-- The place at which the list of the free blocks is cut by a block that is in use. -/
structure Cut (base : ℕ) (ts₁ : List Block) (l₁ : List ℕ) (p : ℕ) : Prop where
  eq : base :: frees ts₁ = l₁ ++ [p]

theorem exists_cut (base : ℕ) (ts₁ : List Block) : ∃ l₁ p, Cut base ts₁ l₁ p := by
  obtain ⟨l₁, p, h⟩ := List.eq_nil_or_concat (base :: frees ts₁) |>.resolve_left (List.cons_ne_nil _ _)
  exact ⟨l₁, p, ⟨by rw [h, List.concat_eq_append]⟩⟩

theorem Cut.round {next : ℕ → ℕ} {l : List ℕ} (hc : Cut base ts₁ l₁ p) :
    Round next base (frees ts₁ ++ l) ↔ Round next p (l ++ l₁) := by
  have heq := hc.eq
  constructor
  · intro h
    refine h.rotate ?_
    rw [← List.cons_append, heq, List.append_assoc, List.singleton_append]
  · intro h
    rcases l₁ with _ | ⟨c, l₁⟩
    · obtain ⟨rfl, hnil⟩ := List.cons.inj heq
      rw [hnil, List.nil_append]
      rwa [List.append_nil] at h
    · obtain ⟨rfl, htl⟩ := List.cons.inj heq
      have hr : Round next base (l₁ ++ p :: l) :=
        h.rotate (show p :: (l ++ base :: l₁) = (p :: l) ++ base :: l₁ from rfl)
      have hl : frees ts₁ = l₁ ++ [p] := htl
      rwa [hl, List.append_assoc, List.singleton_append]

theorem Cut.list (hc : Cut base ts₁ l₁ p) (ht : t.free = false) (ts₂ : List Block) :
    base :: frees (ts₁ ++ t :: ts₂) = l₁ ++ p :: frees ts₂ := by
  rw [frees_append, frees_live ht, ← List.cons_append, hc.eq, List.append_assoc, List.singleton_append]

/-- **The loop of `free` stops** at the last free block before the one that is freed. -/
theorem Cut.stop (hi : Inv base lo h (ts₁ ++ t :: ts₂)) (ht : t.free = false) (hc : Cut base ts₁ l₁ p) {x : ℕ}
    (hx : x ∈ base :: frees (ts₁ ++ t :: ts₂)) : (t.addr > x ∧ t.addr < h.ptr x ∨
      x ≥ h.ptr x ∧ (t.addr > x ∨ t.addr < h.ptr x)) ↔ x = p := by
  obtain ⟨hlay₁, hlay₂, hpos, -⟩ := hi.around
  have hsorted := hi.sorted
  have hround := hi.round
  have hlist := hc.list ht ts₂
  have hbelow : ∀ y ∈ l₁ ++ [p], y < t.addr := by
    intro y hy
    rw [← hc.eq] at hy
    rcases List.mem_cons.1 hy with rfl | hy
    · have hbase := hi.base_le
      have hle := laid_le hlay₁
      omega
    · have hb := frees_bounds hlay₁ hy
      omega
  have habove : ∀ y ∈ frees ts₂, t.addr < y := by
    intro y hy
    have hb := frees_bounds hlay₂ hy
    omega
  have hbase : base < t.addr := by
    refine hbelow base ?_
    rw [← hc.eq]
    exact List.mem_cons_self
  have hpt : p < t.addr := hbelow p (List.mem_append_right l₁ List.mem_cons_self)
  rw [hlist] at hx hsorted
  have hbefore : ∀ y ∈ l₁, y < p := fun y hy => (List.pairwise_append.1 hsorted).2.2 y hy p List.mem_cons_self
  have hlow : ∀ y ∈ l₁ ++ p :: frees ts₂, y < t.addr → y ≤ p := by
    intro y hy hlt
    rcases List.mem_append.1 hy with hy | hy
    · exact (hbefore y hy).le
    · rcases List.mem_cons.1 hy with rfl | hy
      · exact le_rfl
      · exact absurd (habove y hy) (by omega)
  have hhigh : ∀ y ∈ l₁ ++ p :: frees ts₂, p < y → t.addr < y := by
    intro y hy hlt
    rcases List.mem_append.1 hy with hy | hy
    · exact absurd (hbefore y hy) (by omega)
    · rcases List.mem_cons.1 hy with rfl | hy
      · exact absurd hlt (lt_irrefl _)
      · exact habove y hy
  have hp : p ∈ l₁ ++ p :: frees ts₂ := List.mem_append_right l₁ List.mem_cons_self
  obtain ⟨a, b, hab⟩ := List.append_of_mem hx
  have hnext := (hround.rotate (hlist.trans hab)).next_eq
  have hlowx := hlow x hx
  rw [hab] at hsorted hp hhigh
  have hxa : ∀ y ∈ a, y < x := fun y hy => (List.pairwise_append.1 hsorted).2.2 y hy x List.mem_cons_self
  have hxb : ∀ y ∈ b, x < y := (List.pairwise_cons.1 (List.pairwise_append.1 hsorted).2.1).1
  have hpx : p < x ∨ p = x ∨ p ∈ b := by
    rcases List.mem_append.1 hp with hp | hp
    · exact .inl (hxa p hp)
    · exact .inr (List.mem_cons.1 hp)
  rcases b with _ | ⟨y, b⟩
  · -- `x` is the last element, and `base` follows
    have hnx : h.ptr x = base := by
      have hhead : base :: frees (ts₁ ++ t :: ts₂) = a ++ [x] := hlist.trans hab
      rw [hnext]
      simp only [List.nil_append, ← hhead, List.head_cons]
    have hbx : base ≤ x := by
      rcases List.mem_cons.1 (hlist ▸ hx : x ∈ base :: frees (ts₁ ++ t :: ts₂)) with rfl | hx'
      · exact le_rfl
      · exact ((List.pairwise_cons.1 hi.sorted).1 x hx').le
    rw [hnx]
    constructor
    · rintro (⟨-, hlt⟩ | ⟨-, hlt | hlt⟩)
      · omega
      · have hle := hlowx hlt
        rcases hpx with hpx | hpx | hpx
        · omega
        · exact hpx.symm
        · cases hpx
      · omega
    · rintro rfl
      exact .inr ⟨hbx, .inl hpt⟩
  · have hnx : h.ptr x = y := by
      rw [hnext]
      rfl
    have hxy := hxb y List.mem_cons_self
    rw [hnx]
    constructor
    · rintro (⟨hgt, hlt⟩ | ⟨hge, -⟩)
      · have hle := hlowx hgt
        rcases hpx with hpx | hpx | hpx
        · omega
        · exact hpx.symm
        · -- behind `x` comes `y`, which lies above the block
          have hy : y ≤ p := by
            rcases List.mem_cons.1 hpx with rfl | hpb
            · exact le_rfl
            · have hs := List.pairwise_cons.1 (List.pairwise_cons.1 (List.pairwise_append.1 hsorted).2.1).2
              exact (hs.1 p hpb).le
          omega
      · omega
    · rintro rfl
      exact .inl ⟨hpt, hhigh y (List.mem_append_right a (List.mem_cons_of_mem _ List.mem_cons_self)) hxy⟩

/-! ## Merging -/

theorem Cut.bounds (hi : Inv base lo h (ts₁ ++ t :: ts₂)) (hc : Cut base ts₁ l₁ p) :
    (∀ x ∈ l₁ ++ [p], x < t.addr) ∧ ∀ x ∈ frees ts₂, t.addr + 8 * t.units ≤ x := by
  obtain ⟨hlay₁, hlay₂, hpos, -⟩ := hi.around
  refine ⟨fun x hx => ?_, fun x hx => (frees_bounds hlay₂ hx).1⟩
  rw [← hc.eq] at hx
  rcases List.mem_cons.1 hx with rfl | hx
  · have hbase := hi.base_le
    have hle := laid_le hlay₁
    omega
  · have hb := frees_bounds hlay₁ hx
    omega

theorem Cut.not_mem (hi : Inv base lo h (ts₁ ++ t :: ts₂)) (ht : t.free = false) (hc : Cut base ts₁ l₁ p) :
    p ∉ frees ts₂ ++ l₁ := by
  have hsorted := hi.sorted
  rw [hc.list ht, List.pairwise_append] at hsorted
  intro hp
  rcases List.mem_append.1 hp with hp | hp
  · exact lt_irrefl p ((List.pairwise_cons.1 hsorted.2.1).1 p hp)
  · exact lt_irrefl p (hsorted.2.2 p hp p List.mem_cons_self)

/-- What `joinUp` does: the block has `u` units, its link is `v`, and the blocks `us` follow. -/
structure Joined (h h' : Heap) (t : Block) (ts₂ us : List Block) (p : ℕ) (l₁ : List ℕ) (u v : ℕ) : Prop where
  eq : h' = { h with ptr := Function.update h.ptr t.addr v, size := Function.update h.size t.addr u }
  units : t.units ≤ u
  laid : Laid t.addr (⟨t.addr, u, true⟩ :: us) h.brk
  sub : ∀ s ∈ us, s ∈ ts₂
  merged : us.IsChain fun s t => ¬ Unmerged s t
  head : ∀ s ∈ us.head?, s.free = false
  live : (us.filter fun s => !s.free) = ts₂.filter fun s => !s.free
  round : Round (Function.update h.ptr p v) p (frees us ++ l₁)

theorem joinUp_spec (hi : Inv base lo h (ts₁ ++ t :: ts₂)) (ht : t.free = false) (hc : Cut base ts₁ l₁ p) :
    ∃ h' us u v, joinUp t.addr p h = .ok h' ∧ Joined h h' t ts₂ us p l₁ u v := by
  obtain ⟨hlay₁, hlay₂, hpos, hend⟩ := hi.around
  have htop := hi.top
  have hround : Round h.ptr p (frees ts₂ ++ l₁) := by
    refine hc.round.1 ?_
    have hr := hi.round
    rwa [frees_append, frees_live ht] at hr
  have hp8 : p + 8 ≤ h.brk := by
    have hlt := (hc.bounds hi).1 p (List.mem_append_right l₁ List.mem_cons_self)
    omega
  have ht8 : t.addr + 8 ≤ h.brk := by omega
  have htsize : h.size t.addr = t.units := hi.sizes t (List.mem_append_right ts₁ List.mem_cons_self)
  have hplus : plus t.addr t.units = t.addr + 8 * t.units := plus_eq (by omega)
  have hchain := (List.isChain_append.1 hi.merged).2.1
  have hstart : joinUp t.addr p h = if plus t.addr t.units = h.ptr p then
      (do
        let more ← h.getSize (h.ptr p)
        let h ← h.setSize t.addr ((t.units + more) % 2 ^ 32)
        let next ← h.getPtr p
        let after ← h.getPtr next
        h.setPtr t.addr after)
      else h.setPtr t.addr (h.ptr p) := by
    rw [joinUp, getSize_ok ht8, getPtr_ok hp8, htsize]
    rfl
  by_cases hup : ∃ s us, ts₂ = s :: us ∧ s.free = true
  · obtain ⟨s, us, rfl, hs⟩ := hup
    obtain ⟨hsaddr, hspos, hlay⟩ := hlay₂
    have hsend := laid_le hlay
    rw [frees_free hs] at hround
    have hnext : h.ptr p = s.addr := hround.next_eq
    have hssize : h.size s.addr = s.units := hi.sizes s (by simp)
    have hs8 : s.addr + 8 ≤ h.brk := by omega
    have hnot := hc.not_mem hi ht
    rw [frees_free hs] at hnot
    have hmod : (t.units + s.units) % 2 ^ 32 = t.units + s.units := Nat.mod_eq_of_lt (by omega)
    refine ⟨_, us, t.units + s.units, h.ptr s.addr, ?_, rfl, Nat.le_add_right _ _, ⟨rfl, Nat.add_pos_left hpos _, ?_⟩,
      fun x hx => List.mem_cons_of_mem s hx, ?_, ?_, ?_, hround.skip hnot⟩
    · rw [hstart, if_pos (by rw [hplus, hnext, hsaddr]), hnext, getSize_ok hs8, hssize]
      change (h.setSize t.addr ((t.units + s.units) % 2 ^ 32)).bind _ = _
      rw [setSize_ok ht8, hmod]
      have hp8' : p + 8 ≤ { h with size := Function.update h.size t.addr (t.units + s.units) }.brk := hp8
      have hs8' : s.addr + 8 ≤ { h with size := Function.update h.size t.addr (t.units + s.units) }.brk := hs8
      change (Heap.getPtr { h with size := _ } p).bind _ = _
      rw [getPtr_ok hp8']
      change (Heap.getPtr { h with size := _ } (h.ptr p)).bind _ = _
      rw [hnext, getPtr_ok hs8']
      exact setPtr_ok ht8
    · rw [Nat.mul_add, ← Nat.add_assoc]
      exact hlay
    · exact (List.isChain_of_isChain_cons (List.isChain_of_isChain_cons hchain))
    · intro x hx
      have hsx := (List.isChain_cons.1 (List.isChain_of_isChain_cons hchain)).1 x hx
      rw [Unmerged, not_and] at hsx
      simpa using hsx hs
    · rw [List.filter_cons_of_neg (by simp [hs])]
  · have hne : plus t.addr t.units ≠ h.ptr p := by
      rw [hplus]
      intro he
      have hmem : h.ptr p ∈ frees ts₂ ++ (l₁ ++ [p]) := by
        rw [hround.next_eq, ← List.append_assoc]
        exact List.head_mem _
      rcases List.mem_append.1 hmem with hmem | hmem
      · -- the block behind is in use, and the free ones lie above it
        rcases ts₂ with _ | ⟨s, us⟩
        · cases hmem
        · cases hf : s.free with
          | true => exact hup ⟨s, us, rfl, hf⟩
          | false =>
            obtain ⟨-, hspos, hlay⟩ := hlay₂
            rw [frees_live hf] at hmem
            have hb := frees_bounds hlay hmem
            omega
      · have hlt := (hc.bounds hi).1 _ hmem
        omega
    refine ⟨{ h with ptr := Function.update h.ptr t.addr (h.ptr p) }, ts₂, t.units, h.ptr p, ?_, ?_,
      le_rfl, ⟨rfl, hpos, hlay₂⟩, fun x hx => hx, List.isChain_of_isChain_cons hchain, ?_, rfl, ?_⟩
    · rw [hstart, if_neg hne, setPtr_ok ht8]
    · rw [← htsize, Function.update_eq_self]
    · intro s hs
      rcases ts₂ with _ | ⟨x, us⟩
      · cases hs
      · obtain rfl := Option.some.inj hs
        cases hf : x.free with
        | false => rfl
        | true => exact absurd ⟨x, us, rfl, hf⟩ hup
    · rwa [Function.update_eq_self]

theorem joinDown_eq {bp : ℕ} (hp : p + 8 ≤ h.brk) (hb : bp + 8 ≤ h.brk) : joinDown bp p h =
    .ok (if plus p (h.size p) = bp then { h with
      ptr := Function.update h.ptr p (h.ptr bp)
      size := Function.update h.size p ((h.size p + h.size bp) % 2 ^ 32) }
    else { h with ptr := Function.update h.ptr p bp }) := by
  rw [joinDown, getSize_ok hp]
  change (if plus p (h.size p) = bp then _ else _) = _
  split_ifs with hadj
  · rw [getSize_ok hb]
    change (h.setSize p ((h.size p + h.size bp) % 2 ^ 32)).bind _ = _
    rw [setSize_ok hp]
    have hb' : bp + 8 ≤ { h with size := Function.update h.size p ((h.size p + h.size bp) % 2 ^ 32) }.brk := hb
    change (Heap.getPtr { h with size := _ } bp).bind _ = _
    rw [getPtr_ok hb']
    exact setPtr_ok hp
  · exact setPtr_ok hp

section Down

variable {h₁ : Heap} {us : List Block} {u v : ℕ}

/-- The facts about the addresses that both branches of `joinDown` use. -/
theorem Joined.far (hi : Inv base lo h (ts₁ ++ t :: ts₂)) (hc : Cut base ts₁ l₁ p)
    (hj : Joined h h₁ t ts₂ us p l₁ u v) : p < t.addr ∧ base < t.addr ∧ t.addr ∉ p :: (frees us ++ l₁) ∧
      t.addr + 8 * u ≤ h.brk ∧ (∀ s ∈ ts₁, s.addr + 8 ≤ t.addr) ∧ ∀ s ∈ us, t.addr + 8 ≤ s.addr := by
  obtain ⟨hlay₁, -, hpos, -⟩ := hi.around
  have hbelow := (hc.bounds hi).1
  obtain ⟨-, hu, hlay⟩ := hj.laid
  dsimp only at hlay hu
  refine ⟨hbelow p (List.mem_append_right l₁ List.mem_cons_self), hbelow base ?_, fun hmem => ?_, laid_le hlay,
    fun s hs => ?_, fun s hs => ?_⟩
  · rw [← hc.eq]
    exact List.mem_cons_self
  · rcases List.mem_cons.1 hmem with he | hmem
    · exact lt_irrefl _ (he ▸ hbelow p (List.mem_append_right l₁ List.mem_cons_self))
    · rcases List.mem_append.1 hmem with hmem | hmem
      · have hb := frees_bounds hlay hmem
        omega
      · exact lt_irrefl _ (hbelow _ (List.mem_append_left [p] hmem))
  · have hm := laid_mem hlay₁ hs
    omega
  · have hm := laid_mem hlay hs
    omega

theorem Joined.sizes (hi : Inv base lo h (ts₁ ++ t :: ts₂)) (hc : Cut base ts₁ l₁ p)
    (hj : Joined h h₁ t ts₂ us p l₁ u v) {s : Block} (hs : s ∈ ts₁ ∨ s ∈ us) :
    Function.update h.size t.addr u s.addr = s.units := by
  obtain ⟨-, -, -, -, hlow, hhigh⟩ := hj.far hi hc
  rcases hs with hs | hs
  · have hlt := hlow s hs
    have hne : s.addr ≠ t.addr := by omega
    rw [Function.update_of_ne hne]
    exact hi.sizes s (List.mem_append_left _ hs)
  · have hlt := hhigh s hs
    have hne : s.addr ≠ t.addr := by omega
    rw [Function.update_of_ne hne]
    exact hi.sizes s (List.mem_append_right _ (List.mem_cons_of_mem t (hj.sub s hs)))

/-- What `free` leaves. -/
def Freed (base lo : ℕ) (h h₂ : Heap) (p units : ℕ) (ts ts' : List Block) : Prop :=
  Inv base lo { h₂ with freep := p } ts' ∧ (ts'.filter fun s => !s.free) = (ts.filter fun s => !s.free) ∧
  h₂.brk = h.brk ∧ (units ≤ h₂.size p ∨ units ≤ h₂.size (h₂.ptr p))

/-- The block below is free and grows. -/
theorem joinDown_merge {s : Block} (hi : Inv base lo h ((ts₁ ++ [s]) ++ t :: ts₂)) (hs : s.free = true)
    (hc : Cut base (ts₁ ++ [s]) l₁ p) (hj : Joined h h₁ t ts₂ us p l₁ u v) :
    ∃ h₂ ts', joinDown t.addr p h₁ = .ok h₂ ∧ Freed base lo h h₂ p t.units ((ts₁ ++ [s]) ++ ts₂) ts' := by
  obtain ⟨hlay₁, -, hpos, hend⟩ := hi.around
  obtain ⟨hpt, hbt, hnot, hubrk, hlow, hhigh⟩ := hj.far hi hc
  have htop := hi.top
  obtain ⟨mid, hlay, hsmid, hspos, hst⟩ := laid_append.1 hlay₁
  have hst' : s.addr + 8 * s.units = t.addr := by
    rw [hsmid]
    exact hst
  have hfrees : frees (ts₁ ++ [s]) = frees ts₁ ++ [s.addr] := by
    rw [frees_append, frees_free hs]
    rfl
  obtain ⟨hl₁, hp⟩ : base :: frees ts₁ = l₁ ∧ [s.addr] = [p] := by
    refine List.append_inj' ?_ rfl
    rw [← hc.eq, hfrees, List.cons_append]
  obtain rfl : s.addr = p := (List.cons.inj hp).1
  have hbs : base < s.addr := by
    have hle := laid_le hlay
    have hb := hi.base_le
    omega
  have hssize := hj.sizes hi hc (s := s) (.inl (List.mem_append_right ts₁ List.mem_cons_self))
  have hs8 : s.addr + 8 ≤ h.brk := by omega
  have ht8 : t.addr + 8 ≤ h.brk := by omega
  have hmod : (s.units + u) % 2 ^ 32 = s.units + u := Nat.mod_eq_of_lt (by omega)
  have hne : s.addr ≠ t.addr := hpt.ne
  refine ⟨{ h with
      ptr := Function.update (Function.update h.ptr t.addr v) s.addr v
      size := Function.update (Function.update h.size t.addr u) s.addr (s.units + u) },
    ts₁ ++ ⟨s.addr, s.units + u, true⟩ :: us, ?_, ⟨?_, ?_, rfl, ?_⟩⟩
  · have hbrk : h₁.brk = h.brk := by rw [hj.eq]
    have hadj : plus s.addr (Function.update h.size t.addr u s.addr) = t.addr := by
      rw [hssize, plus_eq (by omega), hst']
    rw [joinDown_eq (by rw [hbrk]; exact hs8) (by rw [hbrk]; exact ht8), hj.eq]
    dsimp only
    rw [if_pos hadj, hssize, Function.update_self, Function.update_self, hmod]
  · have hfrees' : frees (ts₁ ++ ⟨s.addr, s.units + u, true⟩ :: us) = frees (ts₁ ++ [s]) ++ frees us := by
      rw [frees_append, frees_free rfl, hfrees, List.append_assoc, List.singleton_append]
    refine ⟨hi.base_pos, hi.base_le, htop, laid_append.2 ⟨mid, hlay, hsmid, Nat.add_pos_left hspos u, ?_⟩,
      fun x hx => ?_, ?_, ?_, ?_, ?_⟩
    · obtain ⟨-, -, hlayu⟩ := hj.laid
      rwa [Nat.mul_add, ← Nat.add_assoc, ← hsmid, hst']
    · rcases List.mem_append.1 hx with hx₁ | hx₁
      · have hm := laid_mem hlay hx₁
        have hxs : x.addr ≠ s.addr := by omega
        change Function.update _ s.addr _ x.addr = _
        rw [Function.update_of_ne hxs, hj.sizes hi hc (.inl (List.mem_append_left [s] hx₁))]
      · rcases List.mem_cons.1 hx₁ with rfl | hx₁
        · exact Function.update_self _ _ _
        · have hlt := hhigh x hx₁
          have hxs : x.addr ≠ s.addr := by omega
          change Function.update _ s.addr _ x.addr = _
          rw [Function.update_of_ne hxs, hj.sizes hi hc (.inr hx₁)]
    · change Function.update _ s.addr _ base = _
      rw [Function.update_of_ne hbs.ne, Function.update_of_ne hbt.ne, hi.base_size]
    · rw [hfrees']
      refine hc.round.2 ?_
      change Round (Function.update (Function.update h.ptr t.addr v) s.addr v) s.addr (frees us ++ l₁)
      rw [Function.update_comm hne.symm]
      exact hj.round.junk hnot v
    · rw [hfrees', hfrees]
      exact List.mem_cons_of_mem _ (by simp)
    · have hm := List.isChain_append.1 (List.isChain_append.1 hi.merged).1
      refine List.isChain_append.2 ⟨hm.1, List.isChain_cons.2 ⟨fun x hx hun => ?_, hj.merged⟩, fun x hx y hy hun => ?_⟩
      · rw [Unmerged, hj.head x hx] at hun
        exact Bool.false_ne_true hun.2
      · obtain rfl := Option.some.inj hy
        exact hm.2.2 x hx s rfl ⟨hun.1, hs⟩
  · rw [List.filter_append, List.filter_append, List.filter_append, List.filter_cons_of_neg (by simp),
      List.filter_cons_of_neg (by simp [hs]), List.filter_nil, List.append_nil, hj.live]
  · left
    change t.units ≤ Function.update (Function.update h.size t.addr u) s.addr (s.units + u) s.addr
    rw [Function.update_self]
    exact hj.units.trans (Nat.le_add_left _ _)

/-- There is no free block directly below. -/
theorem joinDown_put (hi : Inv base lo h (ts₁ ++ t :: ts₂)) (ht : t.free = false)
    (hlast : ∀ s ∈ ts₁.getLast?, s.free = false) (hc : Cut base ts₁ l₁ p)
    (hj : Joined h h₁ t ts₂ us p l₁ u v) :
    ∃ h₂ ts', joinDown t.addr p h₁ = .ok h₂ ∧ Freed base lo h h₂ p t.units (ts₁ ++ ts₂) ts' := by
  obtain ⟨hlay₁, -, hpos, hend⟩ := hi.around
  obtain ⟨hpt, hbt, hnot, hubrk, hlow, hhigh⟩ := hj.far hi hc
  have htop := hi.top
  have hpmem : p ∈ base :: frees ts₁ := by
    rw [hc.eq]
    exact List.mem_append_right l₁ List.mem_cons_self
  have hp8 : p + 8 ≤ h.brk := by
    refine hi.access ?_
    rw [frees_append, ← List.cons_append]
    exact List.mem_append_left _ hpmem
  have ht8 : t.addr + 8 ≤ h.brk := by omega
  have hbrk : h₁.brk = h.brk := by rw [hj.eq]
  have hapart : plus p (Function.update h.size t.addr u p) ≠ t.addr := by
    rw [Function.update_of_ne hpt.ne]
    rcases List.mem_cons.1 hpmem with rfl | hpf
    · rw [hi.base_size, plus_eq (by omega)]
      omega
    · rcases List.eq_nil_or_concat ts₁ with rfl | ⟨ts₀, s, rfl⟩
      · cases hpf
      · rw [List.concat_eq_append] at hpf hlay₁ hlast hi
        have hs := hlast s (List.getLast?_concat)
        rw [frees_append, frees_live hs] at hpf
        obtain ⟨x, hx, -, rfl⟩ := mem_frees.1 ((List.append_nil (frees ts₀)) ▸ hpf)
        obtain ⟨mid, hlay, hsmid, hspos, hst⟩ := laid_append.1 hlay₁
        have hst' : mid + 8 * s.units = t.addr := hst
        have hm := laid_mem hlay hx
        rw [hi.sizes x (by simp [hx]), plus_eq (by omega)]
        omega
  refine ⟨{ h with
      ptr := Function.update (Function.update h.ptr t.addr v) p t.addr
      size := Function.update h.size t.addr u }, ts₁ ++ ⟨t.addr, u, true⟩ :: us, ?_, ⟨?_, ?_, rfl, ?_⟩⟩
  · rw [joinDown_eq (by rw [hbrk]; exact hp8) (by rw [hbrk]; exact ht8), hj.eq]
    dsimp only
    rw [if_neg hapart]
  · have hfrees' : frees (ts₁ ++ ⟨t.addr, u, true⟩ :: us) = frees ts₁ ++ (t.addr :: frees us) := by
      rw [frees_append, frees_free rfl]
    refine ⟨hi.base_pos, hi.base_le, htop, laid_append.2 ⟨t.addr, hlay₁, hj.laid⟩,
      fun x hx => ?_, ?_, ?_, ?_, ?_⟩
    · rcases List.mem_append.1 hx with hx₁ | hx₁
      · exact hj.sizes hi hc (.inl hx₁)
      · rcases List.mem_cons.1 hx₁ with rfl | hx₁
        · exact Function.update_self _ _ _
        · exact hj.sizes hi hc (.inr hx₁)
    · change Function.update _ t.addr _ base = _
      rw [Function.update_of_ne hbt.ne, hi.base_size]
    · rw [hfrees']
      refine hc.round.2 ?_
      have hpm : p ∉ frees us ++ l₁ := by
        intro hmem
        rcases List.mem_append.1 hmem with hmem | hmem
        · obtain ⟨x, hx, -, rfl⟩ := mem_frees.1 hmem
          have hlt := hhigh x hx
          omega
        · exact hc.not_mem hi ht (List.mem_append_right _ hmem)
      have hput := hj.round.put hnot hpm
      rw [Function.update_self, Function.update_comm hpt.ne, Function.update_idem] at hput
      exact hput
    · rw [hfrees', ← List.cons_append]
      exact List.mem_append_left _ hpmem
    · have hm := List.isChain_append.1 hi.merged
      refine List.isChain_append.2 ⟨hm.1, List.isChain_cons.2 ⟨fun x hx hun => ?_, hj.merged⟩, fun x hx y hy hun => ?_⟩
      · rw [Unmerged, hj.head x hx] at hun
        exact Bool.false_ne_true hun.2
      · rw [Unmerged, hlast x hx] at hun
        exact Bool.false_ne_true hun.1
  · rw [List.filter_append, List.filter_append, List.filter_cons_of_neg (by simp), hj.live]
  · right
    change t.units ≤ Function.update h.size t.addr u (Function.update (Function.update h.ptr t.addr v) p t.addr p)
    rw [Function.update_self, Function.update_self]
    exact hj.units

end Down

theorem Inv.length_le (hi : Inv base lo h ts) : (base :: frees ts).length ≤ h.brk := by
  have hsub : base :: frees ts ⊆ List.range h.brk := fun x hx => List.mem_range.2 (by
    have hb := hi.access hx
    omega)
  have hnodup : (base :: frees ts).Nodup := hi.sorted.imp fun hlt => hlt.ne
  have hle := (List.subperm_of_subset hnodup hsub).length_le
  rwa [List.length_range] at hle

theorem Inv.walk (hi : Inv base lo h ts) {x : ℕ} (hx : x ∈ base :: frees ts) : ∃ l, Round h.ptr x l ∧
    (∀ y, y ∈ x :: l ↔ y ∈ base :: frees ts) ∧ l.length < h.brk ∧ x ∉ l := by
  obtain ⟨a, b, hab⟩ := List.append_of_mem hx
  have hlen := hi.length_le
  have hnodup : (base :: frees ts).Nodup := hi.sorted.imp fun hlt => hlt.ne
  have hperm : (x :: (b ++ a)).Perm (base :: frees ts) := by
    rw [hab]
    exact (List.perm_append_comm : ((x :: b) ++ a).Perm (a ++ x :: b))
  refine ⟨b ++ a, hi.round.rotate hab, fun y => hperm.mem_iff, ?_, ?_⟩
  · have heq := hperm.length_eq
    rw [List.length_cons] at heq
    omega
  · exact (List.nodup_cons.1 (hperm.nodup_iff.2 hnodup)).1

/-- **`free`** returns, and keeps the invariant; the block that it inserts is where `freep` points to,
or behind that. -/
theorem free_spec {rounds : ℕ} (hr : 2 ^ 31 ≤ rounds) (hi : Inv base lo h (ts₁ ++ t :: ts₂)) (ht : t.free = false) :
    ∃ h' ts', free rounds (t.addr + 8) h = .ok h' ∧ Inv base lo h' ts' ∧
      (ts'.filter fun s => !s.free) = ((ts₁ ++ ts₂).filter fun s => !s.free) ∧ h'.brk = h.brk ∧
      (t.units ≤ h'.size h'.freep ∨ t.units ≤ h'.size (h'.ptr h'.freep)) := by
  obtain ⟨hlay₁, -, hpos, hend⟩ := hi.around
  have htop := hi.top
  obtain ⟨l₁, p, hc⟩ := exists_cut base ts₁
  obtain ⟨l, hround, hmem, hlen, -⟩ := hi.walk hi.freep
  have hp : p ∈ h.freep :: l := by
    rw [hmem, hc.list ht]
    exact List.mem_append_right l₁ List.mem_cons_self
  have hloop : freeLoop h t.addr rounds h.freep = .ok p :=
    freeLoop_walk (List.IsChain.left_of_append hround) hp (by omega) (fun x hx => hi.access ((hmem x).1 hx))
      fun x hx => hc.stop hi ht ((hmem x).1 hx)
  have hbp : minusOne (t.addr + 8) = t.addr := by
    rw [minusOne]
    omega
  obtain ⟨h₁, us, u, v, hup, hj⟩ := joinUp_spec hi ht hc
  obtain ⟨h₂, ts', hdown, hinv, hlive, hbrk, hfit⟩ :
      ∃ h₂ ts', joinDown t.addr p h₁ = .ok h₂ ∧ Freed base lo h h₂ p t.units (ts₁ ++ ts₂) ts' := by
    by_cases hlast : ∀ s ∈ ts₁.getLast?, s.free = false
    · exact joinDown_put hi ht hlast hc hj
    · rcases List.eq_nil_or_concat ts₁ with rfl | ⟨ts₀, s, rfl⟩
      · exact absurd (fun s hs => by cases hs) hlast
      · rw [List.concat_eq_append] at hlast hi hc ⊢
        refine joinDown_merge hi ?_ hc hj
        cases hs : s.free with
        | true => rfl
        | false =>
          refine absurd (fun x hx => ?_) hlast
          rw [List.getLast?_concat] at hx
          obtain rfl := Option.some.inj hx
          exact hs
  refine ⟨{ h₂ with freep := p }, ts', ?_, hinv, hlive, hbrk, hfit⟩
  rw [free, hbp]
  change (freeLoop h t.addr rounds h.freep).bind _ = _
  rw [hloop]
  change (joinUp t.addr p h).bind _ = _
  rw [hup]
  change (joinDown t.addr p h₁).bind _ = _
  rw [hdown]
  rfl

end Free

end Umalloc

end OsPlayground
