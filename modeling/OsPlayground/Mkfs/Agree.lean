import OsPlayground.Fs.Sound
import OsPlayground.Lib.Both
import OsPlayground.Mkfs.Model

/-!
# `mkfs` agrees with the kernel

The blocks below `freeblock` are the ones in use, so an image is a file system whose free map marks
them, although `mkfs` writes the map at the end only.

* `Image.view`: this file system.
* `balloc_view`, `write_view`: the kernel takes the block `freeblock`, and writes the same blocks.
* **`appendLoop_agrees`**: the loop of `iappend` is that of `writei`.
-/

namespace OsPlayground

namespace Mkfs

open Lib Fs

/-- The superblock of a disk on which all inodes of the inode blocks can be used. -/
def sbAll : Superblock := { sb with ninodes := ninodeblocks * IPB }

/-- The image as a file system of the kernel, with the inodes `mem` in the cache. -/
def Image.view (img : Image) (mem : ℕ → Option Inode) : Store where
  sb := sbAll
  disk := Function.update (Function.update img.disk 1 (superBytes sbAll)) sb.bmapstart
    (usedMap img.freeblock)
  mem := mem

/-- The inode `din` in the cache, as in the local variable of `iappend`. -/
def Image.cached (img : Image) (inum : ℕ) (din : Inode) : Store :=
  img.view (Function.update (fun _ => none) inum (some din))

/-- The superblock is there, and the blocks that are not in use are empty. -/
structure Fresh (img : Image) : Prop where
  super : img.disk 1 = superBytes sb
  low : nmeta ≤ img.freeblock
  zero : ∀ b, img.freeblock ≤ b → b < FSSIZE → img.disk b = fun _ => 0

variable {img img' : Image} {mem : ℕ → Option Inode} {b inum i k : ℕ} {din : Inode}

theorem bmapstart_eq : sb.bmapstart = 58 := rfl
theorem nmeta_eq : nmeta = 59 := rfl
theorem nmeta_sbAll : Fs.nmeta sbAll = nmeta := by decide

theorem view_disk_eq : (img.view mem).disk = Function.update
    (Function.update img.disk 1 (superBytes sbAll)) sb.bmapstart (usedMap img.freeblock) := rfl

theorem view_disk (h1 : b ≠ 1) (h58 : b ≠ sb.bmapstart) : (img.view mem).disk b = img.disk b := by
  rw [view_disk_eq, Function.update_of_ne h58, Function.update_of_ne h1]

theorem view_map : (img.view mem).disk sb.bmapstart = usedMap img.freeblock := by
  rw [view_disk_eq, Function.update_self]

theorem view_super : readsb (img.view mem).disk = sbAll := by
  have hd : (img.view mem).disk 1 = superBytes sbAll := by
    rw [view_disk_eq, Function.update_of_ne (by decide), Function.update_self]
  have hconst : readsb (fun _ => superBytes sbAll) = sbAll := by decide +kernel
  rw [← hconst]
  exact readsb_congr hd

theorem getBit_usedMap (n i : ℕ) : getBit (usedMap n) i = decide (i < n) := by
  induction n with
  | zero => simp [usedMap, getBit]
  | succ n ih =>
    rw [usedMap, getBit_setBit, ih, ← Bool.decide_or]
    exact decide_eq_decide.mpr (by omega)

theorem bblock_view (hb : b < FSSIZE) : BBLOCK b sbAll = sb.bmapstart ∧ b % BPB = b := by
  have hlt : b < BPB := lt_trans hb (by decide)
  refine ⟨?_, Nat.mod_eq_of_lt hlt⟩
  rw [BBLOCK, Nat.div_eq_of_lt hlt, Nat.zero_add]
  rfl

theorem view_bit (hb : b < FSSIZE) : (img.view mem).bit b = decide (b < img.freeblock) := by
  obtain ⟨hB, hm⟩ := bblock_view hb
  show getBit ((img.view mem).disk (BBLOCK b sbAll)) (b % BPB) = _
  rw [hB, hm, view_map, getBit_usedMap]

theorem sbAll_layout : Layout sbAll := by
  refine ⟨fun i hi => ?_, by decide, fun b hb => ?_, by decide⟩
  · have hi' : i < 208 := hi
    show 1 < i / 8 + 32 ∧ i / 8 + 32 < 58
    omega
  · have hb' : b < 1000 := hb
    show b / 4096 + 58 < 59
    omega

theorem write_view (h1 : b ≠ 1) (h58 : b ≠ sb.bmapstart) (blk : Bytes) :
    (img.view mem).write b blk = (img.wsect b blk).view mem := by
  unfold Store.write Image.view Image.wsect
  simp only
  rw [Function.update_comm h58.symm, Function.update_comm h1.symm]

theorem freeBlock_view (hfb : img.freeblock < FSSIZE) :
    freeBlock (img.view mem) = some img.freeblock := by
  have hB : BBLOCK (0 * BPB) sbAll = sb.bmapstart := by decide
  have hrange : List.range ((sbAll.size + BPB - 1) / BPB) = [0] := by decide
  have hfind : (List.range BPB).find? (fun bi => decide (0 * BPB + bi < sbAll.size) &&
      !getBit (usedMap img.freeblock) bi) = some img.freeblock := by
    rw [List.find?_range_eq_some]
    refine ⟨?_, List.mem_range.mpr (lt_trans hfb (by decide)), fun j hj => ?_⟩
    · rw [getBit_usedMap, Nat.zero_mul, Nat.zero_add, decide_eq_true (show _ < sbAll.size from hfb)]
      simp
    · rw [getBit_usedMap, decide_eq_true hj]
      simp
  show (List.range ((sbAll.size + BPB - 1) / BPB)).findSome? _ = _
  rw [hrange, List.findSome?_singleton]
  show ((List.range BPB).find? fun bi => decide (0 * BPB + bi < sbAll.size) &&
    !getBit ((img.view mem).disk (BBLOCK (0 * BPB) sbAll)) bi).map _ = _
  rw [hB, view_map, hfind]
  simp

/-- **The kernel takes the block that `mkfs` takes.** -/
theorem balloc_view (hf : Fresh img) (hfb : img.freeblock < FSSIZE) :
    Fs.balloc (img.view mem) =
      .ok (img.freeblock, { img with freeblock := img.freeblock + 1 }.view mem) := by
  have hlow := hf.low
  obtain ⟨hB, hm⟩ := bblock_view hfb
  rw [nmeta_eq] at hlow
  have h58 : img.freeblock ≠ sb.bmapstart := by
    rw [bmapstart_eq]
    omega
  have h1 : img.freeblock ≠ 1 := by omega
  have heq : bzero img.freeblock ((img.view mem).write sb.bmapstart
      (setBit (usedMap img.freeblock) img.freeblock)) =
      { img with freeblock := img.freeblock + 1 }.view mem := by
    unfold bzero Store.write Image.view
    simp only
    rw [Function.update_idem, Function.update_comm h58.symm, Function.update_comm h1.symm]
    congr 3
    rw [← hf.zero _ le_rfl hfb, Function.update_eq_self]
  unfold Fs.balloc
  rw [freeBlock_view hfb]
  show Except.ok (img.freeblock, bzero img.freeblock ((img.view mem).write
    (BBLOCK img.freeblock sbAll) (setBit ((img.view mem).disk (BBLOCK img.freeblock sbAll))
      (img.freeblock % BPB)))) = _
  rw [hB, hm, view_map, heq]

theorem balloc_view_full (hfb : FSSIZE ≤ img.freeblock) :
    Fs.balloc (img.view mem) = .error "balloc: out of blocks" := by
  unfold Fs.balloc
  cases hfr : freeBlock (img.view mem) with
  | none => rfl
  | some b =>
    obtain ⟨hb, hbit⟩ := freeBlock_some hfr
    have hb' : b < FSSIZE := hb
    rw [view_bit hb', decide_eq_false_iff_not] at hbit
    omega

/-! ## The loop of `iappend` -/

section Cached

theorem cached_mem : (img.cached inum din).mem inum = some din := by
  simp [Image.cached, Image.view]

theorem cached_ip : (img.cached inum din).ip inum = din := Store.ip_of_mem cached_mem

theorem cached_isSome : ((img.cached inum din).mem inum).isSome = true := by
  rw [cached_mem]
  rfl

theorem Fresh.ref_lt (h : Alloc (img.view mem) []) (hi : i < sbAll.ninodes) (hk : k < NSLOT)
    (hr : (img.view mem).ref i k ≠ 0) : nmeta ≤ (img.view mem).ref i k ∧
      (img.view mem).ref i k < FSSIZE ∧ (img.view mem).ref i k < img.freeblock := by
  have hn : Fs.nmeta (img.view mem).sb = nmeta := nmeta_sbAll
  obtain ⟨hlo, hhi⟩ := h.range i hi k hk hr
  have hbit := h.bit_ref hi hk hr
  rw [view_bit hhi, decide_eq_true_iff] at hbit
  rw [hn] at hlo
  exact ⟨hlo, hhi, hbit⟩

theorem view_data (hb : nmeta ≤ b) : (img.view mem).disk b = img.disk b := by
  rw [nmeta_eq] at hb
  exact view_disk (by omega) (by rw [bmapstart_eq]; omega)

theorem write_data_view (hb : nmeta ≤ b) (blk : Bytes) :
    (img.view mem).write b blk = (img.wsect b blk).view mem := by
  rw [nmeta_eq] at hb
  exact write_view (by omega) (by rw [bmapstart_eq]; omega) blk

theorem Fresh.next (hf : Fresh img) : Fresh { img with freeblock := img.freeblock + 1 } :=
  ⟨hf.super, hf.low.trans (Nat.le_add_right _ 1), fun b hb => hf.zero b ((Nat.le_add_right _ 1).trans hb)⟩

theorem Fresh.wsect (hf : Fresh img) (h1 : 1 < b) (hb : b < img.freeblock) (blk : Bytes) :
    Fresh (img.wsect b blk) := by
  refine ⟨?_, hf.low, fun x hx hlt => ?_⟩
  · rw [← hf.super]
    exact Function.update_of_ne (Nat.ne_of_lt h1) _ _
  have hne : x ≠ b := Nat.ne_of_gt (lt_of_lt_of_le hb hx)
  have hdisk : (img.wsect b blk).disk x = img.disk x := Function.update_of_ne hne _ _
  rw [hdisk]
  exact hf.zero x hx hlt

/-- A slot of the inode: `takeAddr` is `mapAddr`, or the disk is full. -/
theorem takeAddr_agrees (h : Alloc (img.cached inum din) []) (hi : inum < sbAll.ninodes)
    (hf : Fresh img) (hk : k ≤ NDIRECT) :
    (takeAddr k din img).1 < FSSIZE ∧ mapAddr inum k (img.cached inum din) =
        .ok ((takeAddr k din img).1, (takeAddr k din img).2.2.cached inum (takeAddr k din img).2.1) ∧
      Fresh (takeAddr k din img).2.2 ∨
    FSSIZE ≤ (takeAddr k din img).1 ∧
      mapAddr inum k (img.cached inum din) = .error "balloc: out of blocks" := by
  have hd : NDIRECT = 12 := rfl
  have hs : NSLOT = 141 := rfl
  unfold takeAddr mapAddr
  rw [cached_ip]
  split_ifs with hz
  · by_cases hfb : img.freeblock < FSSIZE
    · refine .inl ⟨hfb, ?_, hf.next⟩
      show (Fs.balloc (img.view _)).map _ = _
      rw [balloc_view hf hfb]
      refine congrArg (fun s => Except.ok (img.freeblock, s)) ?_
      show Store.setIp inum _ (Image.cached { img with freeblock := img.freeblock + 1 } inum din) = _
      unfold Store.setIp
      rw [cached_ip]
      unfold Image.cached Image.view
      simp only [Function.update_idem]
    · refine .inr ⟨not_lt.mp hfb, ?_⟩
      show (Fs.balloc (img.view _)).map _ = _
      rw [balloc_view_full (not_lt.mp hfb)]
      rfl
  · have hr : (img.cached inum din).ref inum k = din.addrs k := by
      rw [Store.ref_direct _ hk, cached_ip]
    have hrange := h.range inum hi k (by omega) (by rwa [hr])
    rw [hr] at hrange
    exact .inl ⟨hrange.2, rfl, hf⟩

theorem mapAddr_ok {fs fs' : Store} {a : ℕ} (h : Alloc fs []) (hi : inum < fs.sb.ninodes)
    (hk : k ≤ NDIRECT) (he : mapAddr inum k fs = .ok (a, fs')) :
    Alloc fs' [] ∧ fs'.sb = fs.sb ∧ fs'.ref inum k = a ∧ a ≠ 0 := by
  have hd : NDIRECT = 12 := rfl
  have hs : NSLOT = 141 := rfl
  rcases mapAddr_cases h hi hk with ⟨hr, he'⟩ | ⟨-, ⟨he', -⟩ | ⟨b, fs₁, he', hfill⟩⟩
  · rw [he] at he'
    obtain ⟨rfl, rfl⟩ := Prod.mk.inj (Except.ok.inj he')
    exact ⟨h, rfl, rfl, hr⟩
  · rw [he] at he'
    cases he'
  · rw [he] at he'
    obtain ⟨rfl, rfl⟩ := Prod.mk.inj (Except.ok.inj he')
    refine ⟨hfill.alloc, hfill.sb, ?_, hfill.pos h⟩
    rw [hfill.ref inum hi k (by omega), if_pos ⟨rfl, rfl⟩]

theorem rsect_ok (hb : b < FSSIZE) : rsect b img = .ok (img.disk b) := if_pos hb
theorem rsect_error (hb : FSSIZE ≤ b) : rsect b img = .error "read" := if_neg (not_lt.mpr hb)

/-- What `readBlock` has found is what `bmap` gives. -/
def Found (inum : ℕ) (x : ℕ × Bytes × Inode × Image) (y : ℕ × Store) : Prop :=
  y = (x.1, x.2.2.2.cached inum x.2.2.1) ∧ x.2.1 = x.2.2.2.disk x.1 ∧ Fresh x.2.2.2

/-- An entry of the indirect block: `takeEntry` is `mapIndirect`, or the disk is full. -/
theorem takeEntry_agrees {j : ℕ} (h : Alloc (img.cached inum din) []) (hi : inum < sbAll.ninodes)
    (hf : Fresh img) (hj : j < NINDIRECT) (hr : (img.cached inum din).ref inum NDIRECT = b)
    (hb : b ≠ 0) :
    Both (Found inum)
      ((rsect (takeEntry b j (img.disk b) img).1 (takeEntry b j (img.disk b) img).2).map fun buf =>
        ((takeEntry b j (img.disk b) img).1, buf, din, (takeEntry b j (img.disk b) img).2))
      (mapIndirect b j (img.cached inum din)) := by
  have hn : NINDIRECT = 128 := rfl
  have hs : NSLOT = 141 := rfl
  have hd : NDIRECT = 12 := rfl
  obtain ⟨hlo, hhi, hlt⟩ := Fresh.ref_lt h hi ndirect_lt (hr.symm ▸ hb)
  change nmeta ≤ (img.cached inum din).ref inum NDIRECT at hlo
  change (img.cached inum din).ref inum NDIRECT < _ at hlt
  rw [hr] at hlo hlt
  have hdisk : (img.cached inum din).disk b = img.disk b := view_data hlo
  unfold takeEntry mapIndirect
  rw [hdisk]
  split_ifs with hz
  · by_cases hfb : img.freeblock < FSSIZE
    · have hbal : Fs.balloc (img.cached inum din) = .ok (img.freeblock,
          Image.cached { img with freeblock := img.freeblock + 1 } inum din) := balloc_view hf hfb
      rw [hbal, rsect_ok hfb]
      refine .ok ⟨?_, rfl, hf.next.wsect (lt_of_lt_of_le (by decide) hlo) (Nat.lt_succ_of_lt hlt) _⟩
      show (img.freeblock, Store.write b (putLE ((Image.view _ _).disk b) _ _ _) (Image.view _ _)) = _
      rw [view_data hlo, write_data_view hlo]
      rfl
    · have hbal : Fs.balloc (img.cached inum din) = .error "balloc: out of blocks" :=
        balloc_view_full (not_lt.mp hfb)
      rw [hbal, rsect_error (not_lt.mp hfb)]
      exact .error _ _
  · have hind : ((img.cached inum din).ip inum).addrs NDIRECT = b := by
      rw [← hr, Store.ref_direct _ le_rfl]
    have hentry : (img.cached inum din).ref inum (NDIRECT + 1 + j) =
        getLE (img.disk b) (4 * j) 4 := by
      rw [Store.ref_indirect _ j (by rwa [hind]), hind, hdisk]
    obtain ⟨-, hlt', -⟩ := Fresh.ref_lt h hi (show NDIRECT + 1 + j < NSLOT by omega)
      (show (img.cached inum din).ref inum (NDIRECT + 1 + j) ≠ 0 by rwa [hentry])
    change (img.cached inum din).ref inum (NDIRECT + 1 + j) < _ at hlt'
    rw [hentry] at hlt'
    rw [rsect_ok hlt']
    exact .ok ⟨rfl, rfl, hf⟩

/-- **`mkfs` finds the blocks of a file as the kernel does.** -/
theorem readBlock_agrees (h : Alloc (img.cached inum din) []) (hi : inum < sbAll.ninodes)
    (hf : Fresh img) (fbn : ℕ) :
    Both (Found inum) (readBlock fbn din img) (bmap inum fbn (img.cached inum din)) := by
  have hm : MAXFILE = NDIRECT + NINDIRECT := rfl
  unfold readBlock findBlock bmap
  by_cases hmax : MAXFILE ≤ fbn
  · rw [if_pos hmax, if_neg (by omega), if_neg (by omega)]
    exact .error _ _
  rw [if_neg hmax]
  by_cases hd : fbn < NDIRECT
  · rw [if_pos hd, if_pos hd]
    show Both _ ((rsect (takeAddr fbn din img).1 (takeAddr fbn din img).2.2).map _) _
    rcases takeAddr_agrees h hi hf hd.le with ⟨hlt, he, hf'⟩ | ⟨hge, he⟩
    · rw [he, rsect_ok hlt]
      exact .ok ⟨rfl, rfl, hf'⟩
    · rw [he, rsect_error hge]
      exact .error _ _
  · rw [if_neg hd, if_neg hd, if_pos (by omega)]
    have htake := takeAddr_agrees h hi hf (le_refl NDIRECT)
    rcases hta : takeAddr NDIRECT din img with ⟨b, din₁, img₁⟩
    rw [hta] at htake
    simp only at htake ⊢
    rcases htake with ⟨hlt, he, hf'⟩ | ⟨hge, he⟩
    · obtain ⟨h₁, -, hr, hb⟩ := mapAddr_ok h hi le_rfl he
      rw [he, rsect_ok hlt]
      exact takeEntry_agrees h₁ hi hf' (by omega) hr hb
    · rw [he, rsect_error hge]
      exact .error _ _

/-- **The loop of `iappend` is that of `writei`.** -/
theorem appendLoop_agrees (fuel : ℕ) : ∀ {off : ℕ} {p : List ℕ} {din : Inode} {img : Image},
    Alloc (img.cached inum din) [] → inum < sbAll.ninodes → Fresh img →
    Both (fun x y => y = (x.1, x.2.2.cached inum x.2.1) ∧ Fresh x.2.2)
      (appendLoop fuel off p din img) (writeLoop inum fuel off p (img.cached inum din)) := by
  induction fuel with
  | zero => exact fun _ _ hf => .ok ⟨rfl, hf⟩
  | succ fuel ih =>
    intro off p din img h hi hf
    unfold appendLoop writeLoop
    by_cases hz : p.length = 0
    · rw [if_pos hz, if_pos hz]
      exact .ok ⟨rfl, hf⟩
    rw [if_neg hz, if_neg hz]
    have hB : BSIZE = 512 := rfl
    have hbn : off / BSIZE < MAXFILE ∨ MAXFILE ≤ off / BSIZE := lt_or_ge _ _
    have hfound := readBlock_agrees h hi hf (off / BSIZE)
    rcases hbn with hbn | hbn
    · rcases bmap_spec h hi cached_isSome hbn with ⟨he, -⟩ | ⟨fs', he, hmap⟩
      · obtain ⟨e, hx⟩ := hfound.error_right he
        show Both _ ((readBlock (off / BSIZE) din img).bind _) _
        rw [he, hx]
        exact .error _ _
      · obtain ⟨⟨x, buf, din', img'⟩, hx, hy, hbuf, hf'⟩ := hfound.ok_right he
        obtain ⟨hxr, rfl⟩ := Prod.mk.inj hy
        show Both _ ((readBlock (off / BSIZE) din img).bind _) _
        rw [he, hx]
        simp only at hbuf hf' hxr
        obtain ⟨hlo, hhi, hlt⟩ := Fresh.ref_lt hmap.alloc hi (slotOf_lt hbn) hmap.ref
        change nmeta ≤ (img'.cached inum din').ref inum _ at hlo
        change (img'.cached inum din').ref inum _ < _ at hlt
        rw [hxr] at hlo hlt
        have hmod : off - off / BSIZE * BSIZE = off % BSIZE := by
          rw [hB]
          omega
        have hn1 : (off / BSIZE + 1) * BSIZE - off = BSIZE - off % BSIZE := by
          rw [hB]
          omega
        have hdisk : (img'.cached inum din').disk x = img'.disk x := view_data hlo
        have hwrite : ∀ blk, (img'.cached inum din').write x blk =
            (img'.wsect x blk).cached inum din' := write_data_view hlo
        show Both _ (appendLoop fuel (off + min p.length ((off / BSIZE + 1) * BSIZE - off))
            (p.drop (min p.length ((off / BSIZE + 1) * BSIZE - off))) din'
            (img'.wsect x (memmove buf (off - off / BSIZE * BSIZE)
              (min p.length ((off / BSIZE + 1) * BSIZE - off)) p)))
          (writeLoop inum fuel (off + min p.length (BSIZE - off % BSIZE))
            (p.drop (min p.length (BSIZE - off % BSIZE))) _)
        rw [hn1, hmod, hxr, hdisk, hwrite, ← hbuf]
        refine ih ?_ hi (hf'.wsect (lt_of_lt_of_le (by decide) hlo) hlt _)
        rw [← hwrite, ← hxr]
        exact (hmap.alloc.write_data hi hbn cached_isSome hmap.ref rfl).1
    · have hm : MAXFILE = NDIRECT + NINDIRECT := rfl
      have he : bmap inum (off / BSIZE) (img.cached inum din) = .error "bmap: out of range" := by
        unfold bmap
        rw [if_neg (by omega), if_neg (by omega)]
      obtain ⟨e, hx⟩ := hfound.error_right he
      show Both _ ((readBlock (off / BSIZE) din img).bind _) _
      rw [he, hx]
      exact .error _ _

end Cached

end Mkfs

end OsPlayground
