import OsPlayground.Fs.Map

/-!
# The bytes of the files

* `Store.byte`, `Store.content`: the contents of an inode.
* `Alloc.write_data`: a write to a block of a file changes this block of this file only.
* `Written`, **`writeLoop_spec`** and **`readLoop_spec`**: the loops of `writei` and `readi`.
-/

namespace OsPlayground

namespace Fs

open Lib

namespace Store

/-- The byte `o` of the file. -/
def byte (fs : Store) (i o : ℕ) : ℕ := fs.block i (o / BSIZE) (o % BSIZE)

/-- The contents of the file. -/
def content (fs : Store) (i : ℕ) : List ℕ := (List.range (fs.ip i).size).map (fs.byte i)

end Store

theorem BSIZE_eq : BSIZE = 512 := rfl
theorem bn_lt {o : ℕ} (h : o < MAXFILE * BSIZE) : o / BSIZE < MAXFILE :=
  Nat.div_lt_of_lt_mul (by rwa [Nat.mul_comm] at h)

variable {fs fs' : Store} {inum b i bn off n fuel : ℕ} {blk : Bytes} {src : List ℕ}

theorem Store.block_of_ref (h : fs.ref i (slotOf bn) ≠ 0) :
    fs.block i bn = fs.disk (fs.ref i (slotOf bn)) := if_neg h

/-- The data blocks of files hold nothing else. -/
theorem Alloc.write_data (h : Alloc fs []) (hi : inum < fs.sb.ninodes) (hbn : bn < MAXFILE)
    (hc : (fs.mem inum).isSome = true) (hr : fs.ref inum (slotOf bn) ≠ 0)
    (ht : fs.write (fs.ref inum (slotOf bn)) blk = fs') :
    Alloc fs' [] ∧ Grown fs fs' inum ∧ fs'.ip inum = fs.ip inum ∧
      (∀ i < fs.sb.ninodes, ∀ k < NSLOT, fs'.ref i k = fs.ref i k) ∧
      ∀ i < fs.sb.ninodes, ∀ bn' < MAXFILE,
        fs'.block i bn' = if i = inum ∧ bn' = bn then blk else fs.block i bn' := by
  have hs := slotOf_lt hbn
  obtain ⟨hmeta, -⟩ := h.range inum hi _ hs hr
  obtain ⟨h1, hB, hI⟩ := h.layout.data hmeta
  generalize hb : fs.ref inum (slotOf bn) = b at *
  have hdisk : ∀ x, x ≠ b → fs'.disk x = fs.disk x := fun x hx => by
    rw [← ht]
    exact Function.update_of_ne hx _ _
  have hself : fs'.disk b = blk := by
    rw [← ht]
    exact Function.update_self _ _ _
  have hsb : fs'.sb = fs.sb := by rw [← ht]; rfl
  have hmem : fs'.mem = fs.mem := by rw [← ht]; rfl
  have hip : ∀ i < fs.sb.ninodes, fs'.ip i = fs.ip i := fun i hi' =>
    (Store.ip_congr hsb (congrFun hmem i) (hdisk _ (hI i hi'))).2
  have href : ∀ i < fs.sb.ninodes, ∀ k < NSLOT, fs'.ref i k = fs.ref i k := by
    intro i hi' k hk
    refine Store.ref_congr (hip i hi') fun hind => hdisk _ fun he => ?_
    rw [← Store.ref_direct fs le_rfl] at hind he
    exact slotOf_ne bn (h.inj inum hi _ hs i hi' _ ndirect_lt (hb.trans he.symm) (hb ▸ hr)).2
  have hbit : ∀ x < fs.sb.size, fs'.bit x = fs.bit x := fun x hx => by
    unfold Store.bit
    rw [hsb, hdisk _ (hB x hx).symm]
  refine ⟨h.same hsb (hdisk 1 h1.symm) href hbit, ⟨hsb, by rw [← ht]; rfl, fun i _ => congrFun hmem i,
    by rw [hmem]; exact hc, ⟨_, hip inum hi, fun _ _ => rfl⟩, fun i hi' => hdisk _ (hI i hi'),
    fun i hi' k hk _ => href i hi' k hk, fun i hi' _ k hk => href i hi' k hk, ?_⟩, hip inum hi, href,
    fun i hi' bn' hbn' => ?_⟩
  · have hfree : fs'.free = fs.free := by
      unfold Store.free
      rw [hsb]
      exact congrArg Finset.card (Finset.filter_congr fun x hx => by
        rw [hbit x (Finset.mem_range.mp hx)])
    have habsent : fs'.absent inum = fs.absent inum := by
      unfold Store.absent
      exact congrArg Finset.card (Finset.filter_congr fun k hk => by
        rw [href inum hi k (Finset.mem_range.mp hk)])
    rw [hfree, habsent]
  · unfold Store.block
    rw [href i hi' _ (slotOf_lt hbn')]
    by_cases hne : i = inum ∧ bn' = bn
    · rw [hne.1, hne.2, hb, if_neg hr, if_pos ⟨rfl, rfl⟩]
      exact hself
    · rw [if_neg hne]
      split_ifs with hz
      · rfl
      · refine hdisk _ fun he => hne ?_
        obtain ⟨h₁, h₂⟩ := h.inj i hi' _ (slotOf_lt hbn') inum hi _ hs (he.trans hb.symm) hz
        exact ⟨h₁, slotOf_inj h₂⟩

/-! ## The loops -/

/-- The bytes from `off` on are those of `src`. -/
structure Written (fs fs' : Store) (inum off : ℕ) (src : List ℕ) : Prop where
  alloc : Alloc fs' []
  grown : Grown fs fs' inum
  mapped : ∀ o, off ≤ o → o < off + src.length → fs'.ref inum (slotOf (o / BSIZE)) ≠ 0
  byte : ∀ o < MAXFILE * BSIZE, fs'.byte inum o =
    if off ≤ o ∧ o < off + src.length then src.getD (o - off) 0 else fs.byte inum o
  other : ∀ i < fs.sb.ninodes, i ≠ inum → ∀ bn < MAXFILE, fs'.block i bn = fs.block i bn
  only : ∀ bn < MAXFILE, off + src.length ≤ bn * BSIZE →
    fs'.ref inum (slotOf bn) = fs.ref inum (slotOf bn)
  same : (∀ o, off ≤ o → o < off + src.length → fs.ref inum (slotOf (o / BSIZE)) ≠ 0) →
    fs'.ip inum = fs.ip inum

theorem Written.nil (h : Alloc fs []) (hc : (fs.mem inum).isSome = true) :
    Written fs fs inum off [] := by
  refine ⟨h, .refl hc, fun o h₁ h₂ => ?_, fun o _ => ?_, fun _ _ _ _ _ => rfl,
    fun _ _ _ => rfl, fun _ => rfl⟩
  · rw [List.length_nil] at h₂
    omega
  · rw [if_neg]
    rw [List.length_nil]
    omega

/-- A round of the loop of `writei` in front of the others. -/
theorem Written.round {fs₁ t : Store} {m : ℕ} (h : Alloc fs []) (hi : inum < fs.sb.ninodes)
    (hz : src.length ≠ 0) (hend : off + src.length ≤ MAXFILE * BSIZE) (hm : Mapped fs fs₁ inum (off / BSIZE))
    (hmin : m = min src.length (BSIZE - off % BSIZE))
    (ht : fs₁.write (fs₁.ref inum (slotOf (off / BSIZE)))
      (memmove (fs₁.disk (fs₁.ref inum (slotOf (off / BSIZE)))) (off % BSIZE) m src) = t)
    (hw : Written t fs' inum (off + m) (src.drop m)) : Written fs fs' inum off src := by
  have hsb := hm.grown.sb
  have hbn : off / BSIZE < MAXFILE := bn_lt (by omega)
  have hi₁ : inum < fs₁.sb.ninodes := by rwa [hsb]
  obtain ⟨-, hgt, hip, href, hblock⟩ :=
    hm.alloc.write_data hi₁ hbn hm.grown.cached hm.ref ht
  have hsbt : t.sb = fs.sb := hgt.sb.trans hsb
  have hit : inum < t.sb.ninodes := by rwa [hsbt]
  have hlen : (src.drop m).length = src.length - m := List.length_drop
  have hB := BSIZE_eq
  refine ⟨hw.alloc, (hm.grown.trans hgt).trans hw.grown, fun o h₁ h₂ => ?_, fun o ho => ?_,
    fun i hi' hne bn hbn' => ?_, fun bn hbn' hge => ?_, fun hall => ?_⟩
  · by_cases ho : o < off + m
    · have hdiv : o / BSIZE = off / BSIZE := by
        rw [hB] at hmin ⊢
        omega
      have hr : t.ref inum (slotOf (off / BSIZE)) ≠ 0 := by
        rw [href inum hi₁ _ (slotOf_lt hbn)]
        exact hm.ref
      rw [hdiv, hw.grown.ref inum hit _ (slotOf_lt hbn) hr]
      exact hr
    · exact hw.mapped o (by omega) (by omega)
  · have hto : t.byte inum o = if off ≤ o ∧ o < off + m then src.getD (o - off) 0
        else fs.byte inum o := by
      unfold Store.byte
      rw [hblock inum hi₁ _ (bn_lt ho)]
      by_cases hd : o / BSIZE = off / BSIZE
      · rw [if_pos ⟨rfl, hd⟩, memmove, ← Store.block_of_ref hm.ref, hm.block inum hi _ hbn, hd]
        rw [hB] at hd hmin ⊢
        have hsub : o % 512 - off % 512 = o - off := by omega
        rw [hsub]
        exact if_congr (by omega) rfl rfl
      · rw [if_neg fun he => hd he.2, hm.block inum hi _ (bn_lt ho), if_neg]
        rw [hB] at hd hmin
        omega
    rw [hw.byte o ho, hto, hlen]
    by_cases ho' : o < off + m
    · rw [if_neg (by omega)]
      exact if_congr (by omega) rfl rfl
    · have hget : (src.drop m).getD (o - (off + m)) 0 = src.getD (o - off) 0 := by
        rw [List.getD_eq_getElem?_getD, List.getD_eq_getElem?_getD, List.getElem?_drop]
        congr 2
        omega
      rw [hget, if_neg (show ¬ (off ≤ o ∧ o < off + m) by omega)]
      exact if_congr (by omega) rfl rfl
  · rw [hw.other i (hsbt ▸ hi') hne bn hbn', hblock i (hsb ▸ hi') bn hbn', if_neg fun he => hne he.1,
      hm.block i hi' bn hbn']
  · have hne : bn ≠ off / BSIZE := by
      rw [hB] at hge ⊢
      omega
    rw [hw.only bn hbn' (by omega), href inum hi₁ _ (slotOf_lt hbn'), hm.only bn hbn' hne]
  · obtain rfl := hm.same (hall off le_rfl (by omega))
    refine (hw.same fun o h₁ h₂ => ?_).trans hip
    have ho : o < MAXFILE * BSIZE := by omega
    rw [href inum hi _ (slotOf_lt (bn_lt ho))]
    exact hall o (by omega) (by omega)

/-- **What the loop of `writei` does.** -/
theorem writeLoop_spec (fuel : ℕ) : ∀ {fs : Store} {off : ℕ} {src : List ℕ}, Alloc fs [] →
    inum < fs.sb.ninodes → (fs.mem inum).isSome = true → off + src.length ≤ MAXFILE * BSIZE →
    src.length ≤ fuel →
    writeLoop inum fuel off src fs = .error "balloc: out of blocks" ∧ fs.free < fs.absent inum ∨
      ∃ fs', writeLoop inum fuel off src fs = .ok (off + src.length, fs') ∧
        Written fs fs' inum off src := by
  induction fuel with
  | zero =>
    intro fs off src h hi hc _ hfuel
    obtain rfl : src = [] := List.eq_nil_of_length_eq_zero (by omega)
    exact .inr ⟨fs, rfl, .nil h hc⟩
  | succ fuel ih =>
    intro fs off src h hi hc hend hfuel
    unfold writeLoop
    by_cases hz : src.length = 0
    · obtain rfl : src = [] := List.eq_nil_of_length_eq_zero hz
      exact .inr ⟨fs, rfl, .nil h hc⟩
    rw [if_neg hz]
    have hoff : off < MAXFILE * BSIZE := by omega
    rcases bmap_spec h hi hc (bn_lt hoff) with ⟨he, hlt, -⟩ | ⟨fs₁, he, hm⟩
    · exact .inl ⟨by rw [he]; rfl, hlt⟩
    rw [he]
    show writeLoop inum fuel (off + min src.length (BSIZE - off % BSIZE))
        (src.drop (min src.length (BSIZE - off % BSIZE))) _ = _ ∧ _ ∨
      ∃ fs', writeLoop inum fuel (off + min src.length (BSIZE - off % BSIZE))
        (src.drop (min src.length (BSIZE - off % BSIZE))) _ = _ ∧ _
    generalize hmin : min src.length (BSIZE - off % BSIZE) = m
    generalize ht : fs₁.write (fs₁.ref inum (slotOf (off / BSIZE)))
      (memmove (fs₁.disk (fs₁.ref inum (slotOf (off / BSIZE)))) (off % BSIZE) m src) = t
    have hsb := hm.grown.sb
    obtain ⟨hat, hgt, -⟩ :=
      hm.alloc.write_data (hsb ▸ hi) (bn_lt hoff) hm.grown.cached hm.ref ht
    have hit : inum < t.sb.ninodes := by rwa [hgt.sb, hsb]
    have hmod : off % BSIZE < BSIZE := Nat.mod_lt _ (by decide)
    have hlen : (src.drop m).length = src.length - m := List.length_drop
    have hend' : off + m + (src.drop m).length ≤ MAXFILE * BSIZE := by omega
    rcases ih hat hit hgt.cached hend' (by omega) with
      ⟨he', hlt⟩ | ⟨fs', he', hw⟩
    · have h₁ := hm.grown.spend
      have h₂ := hgt.spend
      exact .inl ⟨he', by omega⟩
    · have hsum : off + m + (src.length - m) = off + src.length := by omega
      rw [hlen, hsum] at he'
      exact .inr ⟨fs', he', .round h hi hz hend hm hmin.symm ht hw⟩

/-- **What the loop of `readi` does** when all blocks are there. -/
theorem readLoop_spec (fuel : ℕ) : ∀ {off n : ℕ}, off + n ≤ MAXFILE * BSIZE →
    (∀ o, off ≤ o → o < off + n → fs.ref inum (slotOf (o / BSIZE)) ≠ 0) → n ≤ fuel →
    readLoop inum fuel off n fs = .ok ((List.range' off n).map (fs.byte inum), fs) := by
  induction fuel with
  | zero =>
    intro off n _ _ hfuel
    obtain rfl : n = 0 := by omega
    rfl
  | succ fuel ih =>
    intro off n hend hall hfuel
    unfold readLoop
    by_cases hz : n = 0
    · rw [if_pos hz, hz]
      rfl
    have hB := BSIZE_eq
    have hmod : off % BSIZE < BSIZE := Nat.mod_lt _ (by decide)
    have hr := hall off le_rfl (by omega)
    rw [if_neg hz, bmap_of_ref (bn_lt (by omega)) hr]
    show (readLoop inum fuel (off + min n (BSIZE - off % BSIZE))
      (n - min n (BSIZE - off % BSIZE)) fs).map _ = _
    generalize hmin : min n (BSIZE - off % BSIZE) = m
    rw [ih (by omega) (fun o h₁ h₂ => hall o (by omega) (by omega)) (by omega)]
    have hdata : (List.range m).map (fun i => fs.disk (fs.ref inum (slotOf (off / BSIZE)))
        (off % BSIZE + i)) = (List.range' off m).map (fs.byte inum) := by
      rw [List.range'_eq_map_range, List.map_map]
      refine List.map_congr_left fun i hi => ?_
      have hlt := List.mem_range.mp hi
      rw [hB] at hmin
      have hdiv : (off + i) / BSIZE = off / BSIZE := by
        rw [hB]
        omega
      have hmod : (off + i) % BSIZE = off % BSIZE + i := by
        rw [hB]
        omega
      show _ = fs.block inum ((off + i) / BSIZE) ((off + i) % BSIZE)
      rw [hdiv, hmod, Store.block_of_ref hr]
    have hsplit : n = m + (n - m) := by omega
    show Except.ok (_ ++ _, fs) = _
    rw [hdata, ← List.map_append]
    congr 3
    conv_rhs => rw [hsplit]
    rw [← List.range'_append_1]

end Fs

end OsPlayground
