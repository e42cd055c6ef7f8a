import Mathlib.Order.Interval.Finset.Nat
import OsPlayground.Mkfs.Build

/-!
# The image that `mkfs` builds

* **`Accepted`**: what the kernel expects of the image.
* `final_agrees`: the free map that `mkfs` writes at the end is the one of the view.
* `accepted_of_built`, `root_unmapped`, `overrun`: the three cases.
* **`accepted_iff`**: the image is accepted if and only if the root directory does not fill its last
  block exactly and the inodes fit into the inode blocks.
-/

namespace OsPlayground

namespace Mkfs

open Lib Fs

/-- The image as the kernel mounts it. -/
def Image.store (img : Image) : Store where
  sb := readsb img.disk
  disk := img.disk
  mem _ := none

/-- **The image is a file system with these files.** The inodes are those from 1, the root, up to the
last file's. -/
structure Accepted (fs : Store) (files : List Input) : Prop where
  super : fs.sb = sb
  /-- Every block below the size of an inode is there. -/
  mapped : ∀ i, 1 ≤ i → i ≤ files.length + 1 → ∀ o < (fs.ip i).size,
    o / BSIZE < MAXFILE ∧ fs.ref i (slotOf (o / BSIZE)) ≠ 0
  range : ∀ i, 1 ≤ i → i ≤ files.length + 1 → ∀ k < NSLOT, fs.ref i k ≠ 0 →
    nmeta ≤ fs.ref i k ∧ fs.ref i k < FSSIZE
  once : ∀ i, 1 ≤ i → i ≤ files.length + 1 → ∀ k < NSLOT, ∀ i', 1 ≤ i' → i' ≤ files.length + 1 →
    ∀ k' < NSLOT, fs.ref i k = fs.ref i' k' → fs.ref i k ≠ 0 → i = i' ∧ k = k'
  bitmap : ∀ b < FSSIZE, fs.bit b = true ↔ b < nmeta ∨
    ∃ i, 1 ≤ i ∧ i ≤ files.length + 1 ∧ ∃ k < NSLOT, fs.ref i k = b
  /-- The root directory has its entries, and empty ones behind them. -/
  root : (fs.ip ROOTINO).type = T_DIR ∧
    ∃ m, fs.content ROOTINO = entries files ++ List.replicate m 0
  files : ∀ j (hj : j < files.length), (fs.ip (j + 2)).type = T_FILE ∧
    (fs.ip (j + 2)).size = files[j].bytes.length ∧
    readi (j + 2) 0 files[j].bytes.length fs = .ok (.read files[j].bytes, fs)

variable {img img' : Image} {i k b : ℕ} {files : List Input}

/-- The image at the end of `main`, for the image `img` before `balloc`. -/
def final (img : Image) : Store := (img.wsect sb.bmapstart (usedMap img.freeblock)).store

theorem final_disk (h : b ≠ 1) : (final img).disk b = img.bare.disk b := by
  show Function.update img.disk sb.bmapstart (usedMap img.freeblock) b = _
  by_cases hb : b = sb.bmapstart
  · rw [hb, show img.bare.disk sb.bmapstart = _ from view_map, Function.update_self]
  · rw [show img.bare.disk b = _ from view_disk h hb, Function.update_of_ne hb]

theorem final_sb (hf : Fresh img) : (final img).sb = sb := by
  have hd : (final img).disk 1 = superBytes sb := by
    show Function.update img.disk sb.bmapstart (usedMap img.freeblock) 1 = _
    rw [Function.update_of_ne (by decide), hf.super]
  have hconst : readsb (fun _ => superBytes sb) = sb := by decide +kernel
  rw [← hconst]
  exact readsb_congr hd

/-- **The last write makes the image what it was taken for.** -/
theorem final_agrees (hf : Fresh img) (ha : Alloc img.bare []) (hi : i < sbAll.ninodes) :
    (final img).ip i = img.bare.ip i ∧ (∀ k, (final img).ref i k = img.bare.ref i k) ∧
      ∀ bn < MAXFILE, (final img).block i bn = img.bare.block i bn := by
  have hip : (final img).ip i = img.bare.ip i := by
    show getDinode ((final img).disk (IBLOCK i (final img).sb)) (i % IPB) =
      getDinode (img.bare.disk (IBLOCK i sb)) (i % IPB)
    rw [final_sb hf, final_disk (Nat.ne_of_gt (iblock_lt hi).1)]
  have hdata : ∀ k < NSLOT, img.bare.ref i k ≠ 0 → img.bare.ref i k ≠ 1 := fun k hk hr => by
    have hlo := (ha.range i hi k hk hr).1
    rw [show Fs.nmeta img.bare.sb = nmeta from nmeta_sbAll, nmeta_eq] at hlo
    omega
  have href : ∀ k, (final img).ref i k = img.bare.ref i k := fun k => by
    refine Store.ref_congr hip fun hind => final_disk ?_
    rw [← Store.ref_direct img.bare le_rfl] at hind ⊢
    exact hdata _ ndirect_lt hind
  refine ⟨hip, href, fun bn hbn => ?_⟩
  unfold Store.block
  rw [href]
  split_ifs with hz
  · rfl
  · exact final_disk (hdata _ (slotOf_lt hbn) hz)

theorem final_bit (hf : Fresh img) (hb : b < FSSIZE) :
    (final img).bit b = img.bare.bit b := by
  obtain ⟨hB, -⟩ := bblock_view hb
  have hB' : BBLOCK b sb = sb.bmapstart := hB
  show getBit ((final img).disk (BBLOCK b (final img).sb)) (b % BPB) =
    getBit (img.bare.disk (BBLOCK b sbAll)) (b % BPB)
  rw [final_sb hf, hB, hB', final_disk (by decide)]

/-- The image before `balloc`: the size of the root directory is rounded up. -/
def rounded (img : Image) : Image :=
  wroteInode ROOTINO { img.bare.ip ROOTINO with
    size := ((img.bare.ip ROOTINO).size / BSIZE + 1) * BSIZE } img

theorem main_ok (h : main files = .ok img') : ∃ img, addFiles files = .ok img ∧
    ∃ img₁, fixRoot img = .ok img₁ ∧ img'= img₁.wsect sb.bmapstart (usedMap img₁.freeblock) := by
  obtain ⟨img, h₁, h⟩ := bind_ok h
  obtain ⟨img₁, h₂, h⟩ := bind_ok h
  unfold balloc at h
  split_ifs at h
  exact ⟨img, h₁, img₁, h₂, (Except.ok.inj h).symm⟩

theorem fixRoot_eq (img : Image) : fixRoot img = .ok (rounded img) := by
  unfold fixRoot
  rw [rinode_eq root_lt]
  exact winode_eq root_lt _ _

theorem maxfile_bytes : MAXFILE * BSIZE = 71680 := by decide

theorem content_pad {fs fs' : Store} {m : ℕ} (hsize : (fs'.ip i).size = (fs.ip i).size + m)
    (hsame : ∀ o < (fs'.ip i).size, fs'.byte i o = fs.byte i o)
    (hzero : ∀ o, (fs.ip i).size ≤ o → o < (fs'.ip i).size → fs.byte i o = 0) :
    fs'.content i = fs.content i ++ List.replicate m 0 := by
  unfold Store.content
  rw [hsize] at hsame hzero ⊢
  rw [List.range_add, List.map_append]
  congr 1
  · refine List.map_congr_left fun o ho => hsame o ?_
    have := List.mem_range.mp ho
    omega
  · rw [List.map_map, List.eq_replicate_iff]
    refine ⟨by simp, fun x hx => ?_⟩
    obtain ⟨o, ho, rfl⟩ := List.mem_map.mp hx
    have := List.mem_range.mp ho
    show fs'.byte i ((fs.ip i).size + o) = 0
    rw [hsame _ (by omega)]
    exact hzero _ (by omega) (by omega)

theorem root_size (h : Built img files) :
    (img.bare.ip ROOTINO).size = 16 * (files.length + 2) := by
  rw [h.root.size, length_entries]

/-- The size is all that changes at the end. -/
theorem rounded_agrees (h : Built img files) (hn : files.length ≤ 206) : (final (rounded img)).sb = sb ∧
    (final (rounded img)).ip ROOTINO = { img.bare.ip ROOTINO with
      size := ((img.bare.ip ROOTINO).size / BSIZE + 1) * BSIZE } ∧
    (∀ i < sbAll.ninodes, i ≠ ROOTINO → (final (rounded img)).ip i = img.bare.ip i) ∧
    (∀ i < sbAll.ninodes, ∀ k, (final (rounded img)).ref i k = img.bare.ref i k) ∧
    (∀ i < sbAll.ninodes, ∀ bn < MAXFILE,
      (final (rounded img)).block i bn = img.bare.block i bn) ∧
    ∀ b < FSSIZE, (final (rounded img)).bit b = img.bare.bit b := by
  have hB : BSIZE = 512 := rfl
  have hs := root_size h
  have hfit := (h.sound.proper _ root_lt).fits
  have hfit' : Fits { img.bare.ip ROOTINO with
      size := ((img.bare.ip ROOTINO).size / BSIZE + 1) * BSIZE } := by
    refine ⟨hfit.type, hfit.major, hfit.minor, hfit.nlink, ?_, hfit.addrs, hfit.last⟩
    show ((img.bare.ip ROOTINO).size / BSIZE + 1) * BSIZE < 2 ^ 32
    rw [hs, hB]
    omega
  have hput : Put img.bare (rounded img).bare ROOTINO _ :=
    winode_bare root_lt hfit'
  have hf : Fresh (rounded img) := h.fresh.winode root_lt _
  have ha := hput.alloc h.sound.alloc root_lt rfl
  refine ⟨final_sb hf, (final_agrees hf ha root_lt).1.trans hput.ip, fun i hi hne => ?_,
    fun i hi k => ?_, fun i hi bn hbn => ?_, fun b hb => ?_⟩
  · rw [(final_agrees hf ha hi).1, hput.ip_other hne]
  · rw [(final_agrees hf ha hi).2.1, hput.ref h.sound.alloc root_lt rfl hi]
  · rw [(final_agrees hf ha hi).2.2 bn hbn, hput.block h.sound.alloc root_lt rfl hi hbn]
  · rw [final_bit hf hb]
    exact (hput.area h.sound.alloc.layout root_lt).2.1 b hb

/-- **The root directory does not fill its last block exactly.** -/
theorem accepted_of_built (h : Built img files) (hn : files.length ≤ 206)
    (hmod : (files.length + 2) % 32 ≠ 0) :
    Accepted (final (rounded img)) files := by
  have hB : BSIZE = 512 := rfl
  have hM : MAXFILE = 140 := rfl
  have hr : ROOTINO = 1 := rfl
  have hN := ninodes_eq
  have hs := root_size h
  obtain ⟨hsb, hroot, hip, href, hblock, hbit⟩ := rounded_agrees h hn
  have hinode : ∀ i, i ≤ files.length + 1 → i < sbAll.ninodes := fun i hi => by omega
  have hnew : ((final (rounded img)).ip ROOTINO).size = (16 * (files.length + 2) / 512 + 1) * 512 := by
    rw [hroot, hs]
  have hmeta : Fs.nmeta img.bare.sb = nmeta := nmeta_sbAll
  have hmapped : ∀ i, i ≤ files.length + 1 → ∀ o < ((final (rounded img)).ip i).size,
      o / BSIZE < MAXFILE ∧ (final (rounded img)).ref i (slotOf (o / BSIZE)) ≠ 0 := by
    intro i hi o ho
    have hproper := h.sound.proper i (hinode i hi)
    rw [href i (hinode i hi)]
    by_cases hne : i = ROOTINO
    · subst hne
      rw [hnew] at ho
      have hlast := hproper.mapped (min o (16 * (files.length + 2) - 1)) (by rw [hs]; omega)
      have hdiv : min o (16 * (files.length + 2) - 1) / BSIZE = o / BSIZE := by
        rw [hB]
        omega
      rw [hdiv] at hlast
      refine ⟨?_, hlast⟩
      rw [hB, hM]
      omega
    · rw [hip i (hinode i hi) hne] at ho
      exact ⟨bn_lt (lt_of_lt_of_le ho hproper.size), hproper.mapped o ho⟩
  refine ⟨hsb, fun i _ hi => hmapped i hi, fun i _ hi k hk hz => ?_,
    fun i _ hi k hk i' _ hi' k' hk' he hz => ?_, fun b hb => ?_, ⟨by rw [hroot]; exact h.root.type, ?_⟩,
    fun j hj => ?_⟩
  · rw [href i (hinode i hi)] at hz ⊢
    have hrange := h.sound.alloc.range i (hinode i hi) k hk hz
    rwa [hmeta] at hrange
  · rw [href i (hinode i hi)] at he hz
    rw [href i' (hinode i' hi')] at he
    exact h.sound.alloc.inj i (hinode i hi) k hk i' (hinode i' hi') k' hk' he hz
  · rw [hbit b hb, h.sound.alloc.bits b hb, hmeta]
    constructor
    · rintro (hm | hl | ⟨i, hi, k, hk, hz⟩)
      · exact .inl hm
      · exact absurd hl List.not_mem_nil
      by_cases hm : b < nmeta
      · exact .inl hm
      -- an inode that is not in use refers to no block
      have hused : ¬ (i = 0 ∨ files.length + 2 ≤ i) := fun hidle => by
        have haddrs := ((h.sound.proper i hi).idle (h.idle i hi hidle)).2
        have hz' : img.bare.ref i k = 0 := by
          unfold Store.ref
          simp only [haddrs, if_pos, ite_self]
        rw [nmeta_eq] at hm
        omega
      exact .inr ⟨i, by omega, by omega, k, hk, by rw [href i hi, hz]⟩
    · rintro (hm | ⟨i, -, hi, k, hk, hz⟩)
      · exact .inl hm
      · exact .inr (.inr ⟨i, hinode i hi, k, hk, by rw [← href i (hinode i hi), hz]⟩)
  · refine ⟨(16 * (files.length + 2) / 512 + 1) * 512 - 16 * (files.length + 2), ?_⟩
    have hlen := length_entries files
    rw [← h.root.content]
    refine content_pad (by rw [hnew, hs]; omega) (fun o ho => ?_) fun o h₁ h₂ => ?_
    · rw [hnew] at ho
      unfold Store.byte
      rw [hblock _ root_lt _ (bn_lt (by rw [maxfile_bytes]; omega))]
    · rw [hnew] at h₂
      rw [hs] at h₁
      exact h.root.tail o (by omega) (by rw [maxfile_bytes]; omega)
  · obtain ⟨hcont, htype⟩ := h.file j hj
    have hne : j + 2 ≠ ROOTINO := by omega
    have hi : j + 2 < sbAll.ninodes := by omega
    have hproper := h.sound.proper _ hi
    have hip' := hip (j + 2) hi hne
    have hcont' : (final (rounded img)).content (j + 2) = files[j].bytes :=
      (content_congr h.sound hi hip' (hblock (j + 2) hi)).trans hcont
    have htype' : ((final (rounded img)).ip (j + 2)).type = T_FILE := by rw [hip', htype]
    have hdev : ((final (rounded img)).ip (j + 2)).type ≠ T_DEV := by
      rw [htype']
      decide
    have hread := readi_all (by rw [hip']; exact hproper.size)
      (fun o ho => (hmapped (j + 2) (by omega) o ho).2) hdev
    rw [← hcont', (final (rounded img)).length_content]
    exact ⟨htype', rfl, hread⟩

/-- **The root directory fills its last block exactly.** The block behind it is not there. -/
theorem root_unmapped (h : Built img files) (hn : files.length ≤ 206)
    (hmod : (files.length + 2) % 32 = 0) : ¬ Accepted (final (rounded img)) files := by
  intro hacc
  have hB : BSIZE = 512 := rfl
  have hd : NDIRECT = 12 := rfl
  have hone : ROOTINO = 1 := rfl
  have hs := root_size h
  have hlen := length_entries files
  obtain ⟨-, hroot, -, href, -, -⟩ := rounded_agrees h hn
  have hlt : 16 * (files.length + 2) < ((final (rounded img)).ip ROOTINO).size := by
    rw [hroot, hs]
    show _ < (16 * (files.length + 2) / 512 + 1) * 512
    omega
  obtain ⟨-, hr⟩ := hacc.mapped ROOTINO le_rfl (by omega) _ hlt
  rw [href _ root_lt, hB] at hr
  have hbn : 16 * (files.length + 2) / 512 < NDIRECT := by omega
  have hslot : slotOf (16 * (files.length + 2) / 512) = 16 * (files.length + 2) / 512 := if_pos hbn
  rw [hslot, Store.ref_direct _ hbn.le] at hr
  refine hr (h.root.blocks _ hbn ?_)
  rw [hlen, hB]
  omega

/-! ## Too many files -/

theorem usedMap_zero {used o : ℕ} (h : used ≤ 8 * o) : usedMap used o = 0 := by
  induction used with
  | zero => rfl
  | succ used ih =>
    rw [usedMap, setBit, Function.update_of_ne (by omega)]
    exact ih (by omega)

/-- **The inode 208 is in the free map.** Its size is not 0 then, so it has no blocks below it, or it
is too long for a file. -/
theorem overrun (hfb : 64 < img.freeblock) (hn : 206 < files.length) :
    ¬ Accepted (final img) files := by
  intro hacc
  have hB : BSIZE = 512 := rfl
  have hd : NDIRECT = 12 := rfl
  have hdisk : (final img).disk sb.bmapstart = usedMap img.freeblock :=
    (final_disk (by decide)).trans view_map
  have hblk : IBLOCK 208 sb = sb.bmapstart := by decide
  have hip : (final img).ip 208 = getDinode (usedMap img.freeblock) 0 := by
    show getDinode ((final img).disk (IBLOCK 208 (final img).sb)) (208 % IPB) = _
    rw [hacc.super, hblk, hdisk, show 208 % IPB = 0 by decide]
  have hsize : ((final img).ip 208).size = getLE (usedMap img.freeblock) 8 4 := by rw [hip]; rfl
  have haddr : ((final img).ip 208).addrs 0 = getLE (usedMap img.freeblock) 12 4 := by
    rw [hip]
    rfl
  have hbit : ∀ b, b < img.freeblock → (usedMap img.freeblock (b / 8)).testBit (b % 8) = true :=
    fun b hb => by rw [← getBit_eq, getBit_usedMap, decide_eq_true hb]
  have hmapped := hacc.mapped 208 (by omega) (by omega)
  rw [hsize] at hmapped
  have h8 : usedMap img.freeblock 8 ≠ 0 := fun hz => by
    have := hbit 64 hfb
    rw [show 64 / 8 = 8 from rfl, hz, Nat.zero_testBit] at this
    exact absurd this (by decide)
  have hpos : 0 < getLE (usedMap img.freeblock) 8 4 := by
    show 0 < usedMap img.freeblock 8 + _
    omega
  have hr := (hmapped 0 hpos).2
  rw [show slotOf (0 / BSIZE) = 0 from rfl, Store.ref_direct _ (by omega), haddr] at hr
  have h96 : 96 < img.freeblock := by
    by_contra hle
    exact hr (getLE_of_zero fun o h₁ _ => usedMap_zero (by omega))
  have h11 : 2 ^ 7 ≤ usedMap img.freeblock 11 := Nat.ge_two_pow_of_testBit (hbit 95 (by omega))
  have hbig : MAXFILE * BSIZE < getLE (usedMap img.freeblock) 8 4 := by
    show _ < usedMap img.freeblock 8 + 256 * (usedMap img.freeblock 9 +
      256 * (usedMap img.freeblock 10 + 256 * (usedMap img.freeblock 11 + 256 * 0)))
    rw [maxfile_bytes]
    omega
  exact absurd (hmapped _ hbig).1 (by decide)

/-- 206 files have taken more than five blocks for the root directory. -/
theorem built_freeblock (h : Built img files) (hn : files.length = 206) : 64 < img.freeblock := by
  have hB : BSIZE = 512 := rfl
  have hd : NDIRECT = 12 := rfl
  have hslots : NSLOT = 141 := rfl
  have hs := root_size h
  rw [hn] at hs
  have href : ∀ k < 7, nmeta ≤ img.bare.ref ROOTINO k ∧ img.bare.ref ROOTINO k < img.freeblock := by
    intro k hk
    have hr := (h.sound.proper _ root_lt).mapped (512 * k) (by omega)
    have hdiv : 512 * k / BSIZE = k := by
      rw [hB]
      omega
    have hslot : slotOf k = k := if_pos (by omega)
    rw [hdiv, hslot] at hr
    obtain ⟨h₁, -, h₂⟩ := Fresh.ref_lt h.sound.alloc root_lt (show k < NSLOT by omega) hr
    exact ⟨h₁, h₂⟩
  have hcard : (Finset.range 7).card ≤ (Finset.Ico nmeta img.freeblock).card := by
    refine Finset.card_le_card_of_injOn (img.bare.ref ROOTINO) (fun k hk => ?_)
      fun k hk k' hk' he => ?_
    · rw [Finset.mem_coe, Finset.mem_range] at hk
      rw [Finset.mem_coe, Finset.mem_Ico]
      exact href k hk
    · rw [Finset.mem_coe, Finset.mem_range] at hk hk'
      have hlo := (href k hk).1
      rw [nmeta_eq] at hlo
      exact (h.sound.alloc.inj _ root_lt k (lt_trans hk (by decide)) _ root_lt k'
        (lt_trans hk' (by decide)) he (by omega)).2
  rw [Finset.card_range, Nat.card_Ico, nmeta_eq] at hcard
  omega

/-- **The image is accepted** if and only if the root directory does not fill its last block exactly
(30, 62, ... files) and there are at most 206 files. -/
theorem accepted_iff (files : List Input) (img : Image) (h : main files = .ok img) :
    Accepted img.store files ↔ (files.length + 2) % 32 ≠ 0 ∧ files.length ≤ 206 := by
  obtain ⟨img₀, hadd, img₁, hfix, rfl⟩ := main_ok h
  rw [fixRoot_eq] at hfix
  obtain rfl := Except.ok.inj hfix
  obtain ⟨img₂, hstart, hfold⟩ := addFiles_ok hadd
  show Accepted (final (rounded img₀)) files ↔ _
  by_cases hn : files.length ≤ 206
  · have hbuilt : Built img₀ files := hstart.addAll files (by rw [List.length_nil]; omega) hfold
    by_cases hmod : (files.length + 2) % 32 = 0
    · exact iff_of_false (root_unmapped hbuilt hn hmod) fun hc => hc.1 hmod
    · exact iff_of_true (accepted_of_built hbuilt hn hmod) ⟨hmod, hn⟩
  · refine iff_of_false (overrun ?_ (not_le.mp hn)) fun hc => hn hc.2
    -- the first 206 files are built, and the counter only grows
    rw [← List.take_append_drop 206 files, List.foldlM_append] at hfold
    obtain ⟨img₃, htake, hdrop⟩ := bind_ok hfold
    have hlen : (files.take 206).length = 206 := by
      rw [List.length_take]
      omega
    have hbuilt : Built img₃ (files.take 206) :=
      hstart.addAll _ (by rw [List.length_nil, hlen]) htake
    have hahead := addFiles_ahead _ hdrop
    exact lt_of_lt_of_le (built_freeblock hbuilt hlen) hahead

/-! ## Small images -/

theorem absent_le (fs : Store) (i : ℕ) : fs.absent i ≤ NSLOT :=
  (Finset.card_filter_le _ _).trans (Finset.card_range _).le

/-- There is a free block for every empty slot of the root directory. -/
def Roomy (img : Image) : Prop := img.bare.absent ROOTINO ≤ img.bare.free

theorem Roomy.append {p : List ℕ} (h : Roomy img) (ha : Appended img img' ROOTINO p) :
    Roomy img' := by
  have := ha.spend
  unfold Roomy at h ⊢
  omega

theorem roomy_iappend {c : List ℕ} (hs : Sound img.bare) (hf : Fresh img) (hr : Root img c)
    (hroom : Roomy img) (hc : c.length ≤ 16 * 208) (inum : ℕ) (name : List ℕ) :
    ∃ img', iappend ROOTINO (dirent inum name) img = .ok img' ∧
      Appended img img' ROOTINO (dirent inum name) := by
  have ht : (img.bare.ip ROOTINO).type ≠ 0 := by
    rw [hr.type]
    decide
  rcases iappend_cases hs hf root_lt ht (length_dirent_ne inum name) with hok | ⟨-, hmax | hfull⟩
  · exact hok
  · rw [hr.size, length_dirent, maxfile_bytes] at hmax
    omega
  · exact absurd hroom (not_le.mpr hfull)

/-- An empty file is added. -/
theorem roomy_addFile {f : Input} (h : Built img files) (hn : files.length ≤ 205)
    (hroom : Roomy img) (hname : 47 ∉ f.name) (hempty : f.bytes = []) :
    ∃ img', addFile img f = .ok img' ∧ Roomy img' := by
  have hN := ninodes_eq
  have hone : ROOTINO = 1 := rfl
  have hnext := h.next
  have hi : img.freeinode < sbAll.ninodes := by omega
  obtain ⟨img₁, hal, hm⟩ := ialloc_spec h.sound h.fresh hi
    (h.idle _ hi (.inr (by omega))) (show 0 < T_FILE ∧ T_FILE < 2 ^ 16 by decide)
  have hne : ROOTINO ≠ img.freeinode := by omega
  have hroot : Root img₁ (entries files) :=
    h.root.frame h.sound (hm.other _ root_lt hne) (hm.data _ root_lt)
  have hroom₁ : Roomy img₁ := by
    obtain ⟨h₁, h₂⟩ := hm.spend ROOTINO root_lt
    unfold Roomy
    rw [h₁, h₂]
    exact hroom
  obtain ⟨img₂, happ, ha⟩ := roomy_iappend hm.sound hm.fresh hroot hroom₁
    (by rw [length_entries]; omega) img.freeinode f.target
  refine ⟨img₂, ?_, hroom₁.append ha⟩
  unfold addFile
  rw [if_neg hname, hal]
  show (iappend ROOTINO (dirent img.freeinode f.target) img₁).bind _ = _
  rw [happ, hempty]
  rfl

theorem roomy_addFiles (more : List Input) : ∀ {files : List Input} {img : Image},
    Built img files → files.length + more.length ≤ 206 → Roomy img →
    (∀ f ∈ more, 47 ∉ f.name ∧ f.bytes = []) →
    ∃ img', more.foldlM addFile img = .ok img' ∧ Roomy img' := by
  induction more with
  | nil => exact fun _ _ hroom _ => ⟨_, rfl, hroom⟩
  | cons f more ih =>
    intro files img h hn hroom hall
    rw [List.length_cons] at hn
    obtain ⟨hname, hempty⟩ := hall f List.mem_cons_self
    obtain ⟨img₁, he, hroom₁⟩ := roomy_addFile h (by omega) hroom hname hempty
    have hbuilt := h.add (by omega) he
    obtain ⟨img₂, he₂, hroom₂⟩ := ih hbuilt (by
      rw [List.length_append, List.length_singleton]
      omega) hroom₁ fun g hg => hall g (List.mem_cons_of_mem _ hg)
    refine ⟨img₂, ?_, hroom₂⟩
    rw [List.foldlM_cons, he]
    exact he₂

theorem start_free : 900 ≤ start.bare.free := by
  have hfree : (Finset.Ico nmeta FSSIZE).card ≤ start.bare.free := by
    refine Finset.card_le_card fun b hb => ?_
    obtain ⟨h₁, h₂⟩ := Finset.mem_Ico.mp hb
    refine Finset.mem_filter.mpr ⟨Finset.mem_range.mpr h₂, ?_⟩
    rw [show start.bare.bit b = _ from view_bit h₂]
    exact decide_eq_false (not_lt.mpr h₁)
  have hF : FSSIZE = 1000 := rfl
  rw [Nat.card_Ico, nmeta_eq] at hfree
  omega

theorem start_roomy : Roomy start := by
  have habsent := absent_le start.bare ROOTINO
  have hN : NSLOT = 141 := rfl
  have hfree := start_free
  unfold Roomy
  omega

theorem addFiles_of_start {img₁ img₂ img₃ : Image} (h₁ : ialloc T_DIR start = .ok (ROOTINO, img₁))
    (h₂ : iappend ROOTINO (dirent ROOTINO [46]) img₁ = .ok img₂)
    (h₃ : iappend ROOTINO (dirent ROOTINO [46, 46]) img₂ = .ok img₃)
    (h : files.foldlM addFile img₃ = .ok img) : addFiles files = .ok img := by
  unfold addFiles
  rw [h₁]
  show (if ROOTINO ≠ ROOTINO then Except.error "assert: rootino == ROOTINO" else
    (iappend ROOTINO (dirent ROOTINO [46]) img₁).bind _) = _
  rw [if_neg (not_not.mpr rfl), h₂]
  show (iappend ROOTINO (dirent ROOTINO [46, 46]) img₂).bind _ = _
  rw [h₃]
  exact h

theorem main_of_addFiles (h : addFiles files = .ok img) (hfree : 0 < img.bare.free) :
    main files = .ok ((rounded img).wsect sb.bmapstart (usedMap img.freeblock)) := by
  have hlt : img.freeblock < FSSIZE := by
    obtain ⟨b, hb⟩ := Finset.card_pos.mp hfree
    obtain ⟨hb, hbit⟩ := Finset.mem_filter.mp hb
    have hb' : b < FSSIZE := Finset.mem_range.mp hb
    rw [show img.bare.bit b = _ from view_bit hb', decide_eq_false_iff_not] at hbit
    omega
  unfold main
  rw [h]
  show ((fixRoot img).bind fun img => balloc img.freeblock img) = _
  rw [fixRoot_eq]
  show balloc img.freeblock (rounded img) = _
  exact if_neg (not_le.mpr (lt_trans hlt (by decide)))

/-- **`mkfs` builds an image of empty files.** -/
theorem main_empty (hn : files.length ≤ 206) (hall : ∀ f ∈ files, 47 ∉ f.name ∧ f.bytes = []) :
    ∃ img, main files = .ok img ∧ ∃ img₀, Built img₀ files ∧ img.store = final (rounded img₀) := by
  obtain ⟨img₁, hal, hm, hroot⟩ := start_root
  have hroom₁ : Roomy img₁ := by
    obtain ⟨h₁, h₂⟩ := hm.spend ROOTINO root_lt
    unfold Roomy
    rw [h₁, h₂]
    exact start_roomy
  obtain ⟨img₂, h₂, ha⟩ := roomy_iappend hm.sound hm.fresh hroot hroom₁ (by simp) ROOTINO [46]
  obtain ⟨img₃, h₃, hb⟩ := roomy_iappend ha.sound ha.fresh (hroot.append ha) (hroom₁.append ha)
    (by rw [List.nil_append, length_dirent]; decide) ROOTINO [46, 46]
  have hbuilt := built_start hal h₂ h₃
  obtain ⟨img₀, hfold, hroom⟩ := roomy_addFiles files hbuilt (by rw [List.length_nil]; omega)
    ((hroom₁.append ha).append hb) hall
  have hbuilt₀ : Built img₀ files := hbuilt.addAll files (by rw [List.length_nil]; omega) hfold
  -- the root directory has an empty slot, so there is a free block
  have hfree : 0 < img₀.bare.free := by
    have hd : NDIRECT = 12 := rfl
    have hB : BSIZE = 512 := rfl
    have hzero : img₀.bare.ref ROOTINO 11 = 0 := by
      rw [Store.ref_direct _ (by omega)]
      refine hbuilt₀.root.blocks 11 (by omega) ?_
      rw [length_entries, hB]
      omega
    exact lt_of_lt_of_le (Store.absent_pos (show 11 < NSLOT by decide) hzero) hroom
  exact ⟨_, main_of_addFiles (addFiles_of_start hal h₂ h₃ hfold) hfree, img₀, hbuilt₀, rfl⟩

/-- Thirty empty files. -/
def thirty : List Input := (List.range 30).map fun i => { name := [97 + i], bytes := [] }

theorem thirty_rejected : ∃ img, main thirty = .ok img ∧ ¬ Accepted img.store thirty := by
  have hall : ∀ f ∈ thirty, 47 ∉ f.name ∧ f.bytes = [] := by
    intro f hf
    obtain ⟨i, -, rfl⟩ := List.mem_map.mp hf
    refine ⟨fun hm => ?_, rfl⟩
    have := List.mem_singleton.mp hm
    omega
  obtain ⟨img, he, img₀, hbuilt, hstore⟩ := main_empty (by decide) hall
  refine ⟨img, he, ?_⟩
  rw [hstore]
  exact root_unmapped hbuilt (by decide) (by decide)

theorem spare_iappend {p : List ℕ} {n : ℕ} (hs : Sound img.bare) (hf : Fresh img)
    (hi : i < sbAll.ninodes) (ht : (img.bare.ip i).type ≠ 0) (hp : p.length ≠ 0)
    (hsize : (img.bare.ip i).size + p.length ≤ MAXFILE * BSIZE)
    (hfree : n + NSLOT ≤ img.bare.free) :
    ∃ img', iappend i p img = .ok img' ∧ Appended img img' i p ∧ n ≤ img'.bare.free := by
  have habsent := absent_le img.bare i
  rcases iappend_cases hs hf hi ht hp with ⟨img', h, ha⟩ | ⟨-, hmax | hfull⟩
  · have hspend := ha.spend
    exact ⟨img', h, ha, by omega⟩
  · exact absurd hsize (not_le.mpr hmax)
  · omega

/-- A file of at most a block is added. -/
theorem spare_addFile {f : Input} {n : ℕ} (h : Built img files) (hn : files.length ≤ 205)
    (hname : 47 ∉ f.name) (hbytes : f.bytes.length ≠ 0) (hlen : f.bytes.length ≤ BSIZE)
    (hfree : n + 2 * NSLOT ≤ img.bare.free) :
    ∃ img', addFile img f = .ok img' ∧ n ≤ img'.bare.free := by
  have hN := ninodes_eq
  have hone : ROOTINO = 1 := rfl
  have hB : BSIZE = 512 := rfl
  have hnext := h.next
  have hi : img.freeinode < sbAll.ninodes := by omega
  obtain ⟨img₁, hal, hm⟩ := ialloc_spec h.sound h.fresh hi
    (h.idle _ hi (.inr (by omega))) (show 0 < T_FILE ∧ T_FILE < 2 ^ 16 by decide)
  have hne : ROOTINO ≠ img.freeinode := by omega
  have hroot : Root img₁ (entries files) :=
    h.root.frame h.sound (hm.other _ root_lt hne) (hm.data _ root_lt)
  have ht : (img₁.bare.ip ROOTINO).type ≠ 0 := by
    rw [hroot.type]
    decide
  obtain ⟨img₂, happ, ha, hfree₂⟩ := spare_iappend (n := n + NSLOT) hm.sound hm.fresh root_lt ht
    (length_dirent_ne img.freeinode f.target)
    (by rw [hroot.size, length_entries, length_dirent, maxfile_bytes]; omega)
    (by rw [(hm.spend ROOTINO root_lt).1]; omega)
  have hnew : img₂.bare.ip img.freeinode = { type := T_FILE, nlink := 1 } :=
    ((ha.other _ hi hne.symm).1).trans hm.ip
  obtain ⟨img₃, hcopy, -, hfree₃⟩ := spare_iappend ha.sound ha.fresh hi (by rw [hnew]; decide) hbytes
    (by rw [hnew, maxfile_bytes]; dsimp only; omega) hfree₂
  refine ⟨img₃, ?_, hfree₃⟩
  have hall : f.bytes.take BSIZE = f.bytes := List.take_of_length_le hlen
  have hnone : f.bytes.drop BSIZE = [] := List.drop_eq_nil_of_le hlen
  unfold addFile
  rw [if_neg hname, hal]
  show (iappend ROOTINO (dirent img.freeinode f.target) img₁).bind _ = _
  rw [happ]
  show copyLoop img.freeinode f.bytes.length f.bytes img₂ = _
  obtain ⟨m, hm'⟩ := Nat.exists_eq_succ_of_ne_zero hbytes
  rw [hm', copyLoop, if_neg hbytes, hall, hnone, hcopy]
  cases m <;> rfl

/-- Two files with content. -/
def twoFiles : List Input := [{ name := [95, 97], bytes := [104, 105] }, { name := [98], bytes := [10] }]

theorem main_twoFiles : ∃ img, main twoFiles = .ok img := by
  obtain ⟨img₁, h₁, hm, hroot⟩ := start_root
  have ht : (img₁.bare.ip ROOTINO).type ≠ 0 := by
    rw [hroot.type]
    decide
  have hN : NSLOT = 141 := rfl
  have hfree : 1 + 2 * NSLOT + 2 * NSLOT + NSLOT + NSLOT ≤ img₁.bare.free := by
    rw [(hm.spend ROOTINO root_lt).1]
    have := start_free
    omega
  obtain ⟨img₂, h₂, ha, hfree₂⟩ := spare_iappend hm.sound hm.fresh root_lt ht
    (length_dirent_ne ROOTINO [46])
    (by rw [hroot.size, length_dirent, maxfile_bytes]; decide) hfree
  obtain ⟨img₃, h₃, -, hfree₃⟩ := spare_iappend ha.sound ha.fresh root_lt (by rwa [ha.type])
    (length_dirent_ne ROOTINO [46, 46])
    (by rw [(hroot.append ha).size, List.nil_append, length_dirent, length_dirent, maxfile_bytes]; decide)
    hfree₂
  have hbuilt := built_start h₁ h₂ h₃
  obtain ⟨img₄, h₄, hfree₄⟩ : ∃ img₄, addFile img₃ { name := [95, 97], bytes := [104, 105] } =
      .ok img₄ ∧ 1 + 2 * NSLOT ≤ img₄.bare.free :=
    spare_addFile hbuilt (by decide) (by decide) (by decide) (by decide) hfree₃
  obtain ⟨img₅, h₅, hfree₅⟩ : ∃ img₅, addFile img₄ { name := [98], bytes := [10] } = .ok img₅ ∧
      1 ≤ img₅.bare.free :=
    spare_addFile (hbuilt.add (by decide) h₄) (by decide) (by decide) (by decide) (by decide) hfree₄
  have hfold : twoFiles.foldlM addFile img₃ = .ok img₅ := by
    rw [twoFiles, List.foldlM_cons, h₄]
    show List.foldlM addFile img₄ _ = _
    rw [List.foldlM_cons, h₅]
    rfl
  exact ⟨_, main_of_addFiles (addFiles_of_start h₁ h₂ h₃ hfold) hfree₅⟩

theorem accepted_iff_two : ∃ img, main twoFiles = .ok img ∧ Accepted img.store twoFiles := by
  obtain ⟨img, he⟩ := main_twoFiles
  exact ⟨img, he, (accepted_iff _ img he).mpr (by decide)⟩

end Mkfs

end OsPlayground
