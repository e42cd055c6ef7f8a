import Mathlib.Data.List.Zip
import OsPlayground.Fs.Bytes
import OsPlayground.Mkfs.Append

/-!
# Building the image

* `Made`, `ialloc_spec`: a new inode.
* `Appended.trans`, `copyLoop_spec`: a file is copied piece by piece.
* `entries`: the root directory.
* **`Built`**: the image after some files; `built_start`, `Built.add`.
* `addFile_ahead`: the counters never go back, whatever happens to the image.
-/

namespace OsPlayground

namespace Mkfs

open Lib Fs

variable {img img' img'' : Image} {inum i type fuel : ℕ} {p q bytes : List ℕ} {f : Input}
  {files : List Input}

/-! ## Inodes and files -/

/-- The inode `inum` is new. -/
structure Made (img img' : Image) (inum type : ℕ) : Prop where
  sound : Sound img'.bare
  fresh : Fresh img'
  next : img'.freeinode = inum + 1
  block : img'.freeblock = img.freeblock
  ip : img'.bare.ip inum = { type := type, nlink := 1 }
  other : ∀ i < sbAll.ninodes, i ≠ inum → img'.bare.ip i = img.bare.ip i
  data : ∀ i < sbAll.ninodes, ∀ bn < MAXFILE, img'.bare.block i bn = img.bare.block i bn
  spend : ∀ i < sbAll.ninodes, img'.bare.free = img.bare.free ∧
    img'.bare.absent i = img.bare.absent i

theorem ialloc_spec (hs : Sound img.bare) (hf : Fresh img) (hi : img.freeinode < sbAll.ninodes)
    (hz : (img.bare.ip img.freeinode).type = 0) (ht : 0 < type ∧ type < 2 ^ 16) :
    ∃ img', ialloc type img = .ok (img.freeinode, img') ∧ Made img img' img.freeinode type := by
  have h16 : 1 < 2 ^ 16 := by decide
  have h0 : 0 < 2 ^ 16 := by decide
  have h32 : 0 < 2 ^ 32 := by decide
  have hfit : Fits { type := type, nlink := 1 } :=
    ⟨ht.2, h0, h0, h16, h32, fun _ => h32, fun _ _ => rfl⟩
  have haddrs : (fun _ => 0) = (img.bare.ip img.freeinode).addrs :=
    funext fun k => (((hs.proper _ hi).idle hz).2 k).symm
  refine ⟨wroteInode img.freeinode { type := type, nlink := 1 }
    { img with freeinode := img.freeinode + 1 }, ?_, ?_⟩
  · rw [ialloc, winode_eq hi]
    rfl
  have hput : Put img.bare (wroteInode img.freeinode { type := type, nlink := 1 }
      { img with freeinode := img.freeinode + 1 }).bare img.freeinode
      { type := type, nlink := 1 } := winode_bare hi hfit
  have hnext : Fresh { img with freeinode := img.freeinode + 1 } := ⟨hf.super, hf.low, hf.zero⟩
  refine ⟨?_, hnext.winode hi _, rfl, rfl, hput.ip, fun i _ hne => hput.ip_other hne,
    fun i hi' bn hbn => hput.block hs.alloc hi haddrs hi' hbn, fun i hi' =>
    hput.spend hs.alloc hi haddrs hi'⟩
  refine hput.sound hs.alloc hi haddrs hfit (Nat.zero_le _)
    (fun o ho => absurd ho (Nat.not_lt_zero o)) (fun ht0 => ?_) fun i hi' _ => hs.proper i hi'
  have : type = 0 := ht0
  omega

theorem Appended.refl (hs : Sound img.bare) (hf : Fresh img) : Appended img img inum [] := by
  refine ⟨hs, hf, rfl, rfl, fun o _ => ?_, fun _ _ _ => ⟨rfl, fun _ _ => rfl⟩, fun _ _ _ => rfl, rfl⟩
  rw [List.length_nil, if_neg (by omega)]

theorem Appended.trans (h : Appended img img' inum p) (h' : Appended img' img'' inum q) :
    Appended img img'' inum (p ++ q) := by
  have hsize := h.size
  have hlen : (p ++ q).length = p.length + q.length := List.length_append
  refine ⟨h'.sound, h'.fresh, h'.type.trans h.type, ?_, fun o ho => ?_, fun i hi hne => ?_,
    fun bn hbn hge => ?_, ?_⟩
  · rw [h'.size, hsize, hlen]
    omega
  · rw [h'.byte o ho, h.byte o ho, hsize, hlen]
    by_cases h₁ : o < (img.bare.ip inum).size + p.length
    · rw [if_neg (by omega)]
      by_cases h₂ : (img.bare.ip inum).size ≤ o
      · rw [if_pos ⟨h₂, h₁⟩, if_pos ⟨h₂, by omega⟩, List.getD_append _ _ _ _ (by omega)]
      · rw [if_neg (by omega), if_neg (by omega)]
    · rw [if_neg (show ¬ ((img.bare.ip inum).size ≤ o ∧ o < (img.bare.ip inum).size + p.length) by
        omega)]
      refine if_ctx_congr (by omega) (fun hc => ?_) fun _ => rfl
      rw [List.getD_append_right _ _ _ _ (by omega)]
      congr 1
      omega
  · obtain ⟨h₁, h₂⟩ := h.other i hi hne
    obtain ⟨h₁', h₂'⟩ := h'.other i hi hne
    exact ⟨h₁'.trans h₁, fun bn hbn => (h₂' bn hbn).trans (h₂ bn hbn)⟩
  · rw [hlen] at hge
    rw [h'.only bn hbn (by omega), h.only bn hbn (by omega)]
  · have h₁ := h.spend
    have h₂ := h'.spend
    omega

theorem Appended.content (h : Appended img img' inum p) (hi : inum < sbAll.ninodes) :
    img'.bare.content inum = img.bare.content inum ++ p := by
  have hlen := img.bare.length_content inum
  have hmax : (img'.bare.ip inum).size =
      max (img.bare.ip inum).size ((img.bare.ip inum).size + p.length) := by
    rw [h.size]
    omega
  have hsize := (h.sound.proper inum hi).size
  have happ : overwrite (img.bare.content inum) (img.bare.ip inum).size p =
      img.bare.content inum ++ p := by
    rw [overwrite, List.take_of_length_le hlen.le, List.drop_eq_nil_of_le (by omega),
      List.append_nil]
  rw [← happ]
  unfold Store.content
  rw [hmax]
  refine overwrite_map le_rfl fun o ho => h.byte o ?_
  omega

/-- **A file is copied.** -/
theorem copyLoop_spec (fuel : ℕ) : ∀ {bytes : List ℕ} {img img' : Image}, Sound img.bare →
    Fresh img → inum < sbAll.ninodes → (img.bare.ip inum).type ≠ 0 → bytes.length ≤ fuel →
    copyLoop inum fuel bytes img = .ok img' → Appended img img' inum bytes := by
  induction fuel with
  | zero =>
    intro bytes img img' hs hf _ _ hfuel h
    obtain rfl : bytes = [] := List.eq_nil_of_length_eq_zero (by omega)
    obtain rfl := Except.ok.inj h
    exact .refl hs hf
  | succ fuel ih =>
    intro bytes img img' hs hf hi ht hfuel h
    unfold copyLoop at h
    by_cases hz : bytes.length = 0
    · rw [if_pos hz] at h
      obtain rfl : bytes = [] := List.eq_nil_of_length_eq_zero hz
      obtain rfl := Except.ok.inj h
      exact .refl hs hf
    rw [if_neg hz] at h
    obtain ⟨img₁, he, hrest⟩ := bind_ok h
    have hB : BSIZE = 512 := rfl
    have hlen : (bytes.take BSIZE).length ≠ 0 := by
      rw [List.length_take]
      omega
    have happ := iappend_spec hs hf hi ht hlen he
    have hrec := ih happ.sound happ.fresh hi (by rwa [happ.type])
      (by rw [List.length_drop]; omega) hrest
    rw [← List.take_append_drop BSIZE bytes]
    exact happ.trans hrec

/-! ## The counters -/

theorem copyLoop_ahead (fuel : ℕ) : ∀ {bytes : List ℕ} {img img' : Image},
    copyLoop inum fuel bytes img = .ok img' → Ahead img img' := by
  induction fuel with
  | zero =>
    intro bytes img img' h
    obtain rfl := Except.ok.inj h
    exact ⟨rfl, le_rfl⟩
  | succ fuel ih =>
    intro bytes img img' h
    unfold copyLoop at h
    split_ifs at h
    · obtain rfl := Except.ok.inj h
      exact ⟨rfl, le_rfl⟩
    · obtain ⟨img₁, he, hrest⟩ := bind_ok h
      exact (iappend_ahead he).trans (ih hrest)

theorem addFile_ahead (h : addFile img f = .ok img') : img.freeblock ≤ img'.freeblock := by
  unfold addFile at h
  split_ifs at h
  obtain ⟨⟨n, img₁⟩, he, h⟩ := bind_ok h
  obtain ⟨img₂, happ, hcopy⟩ := bind_ok h
  obtain ⟨img₀, hw, hn⟩ := map_ok he
  obtain ⟨rfl, rfl⟩ := Prod.mk.inj hn
  exact (winode_ahead hw).2.trans ((iappend_ahead happ).2.trans (copyLoop_ahead _ hcopy).2)

theorem addFiles_ahead (files : List Input) : ∀ {img img' : Image},
    files.foldlM addFile img = .ok img' → img.freeblock ≤ img'.freeblock := by
  induction files with
  | nil =>
    intro img img' h
    obtain rfl := Except.ok.inj h
    exact le_rfl
  | cons f files ih =>
    intro img img' h
    rw [List.foldlM_cons] at h
    obtain ⟨img₁, he, hrest⟩ := bind_ok h
    exact (addFile_ahead he).trans (ih hrest)

/-! ## The image after some files -/

/-- The entries of the root directory. -/
def entries (files : List Input) : List ℕ :=
  dirent ROOTINO [46] ++ dirent ROOTINO [46, 46] ++
    (files.zipIdx.map fun (f, j) => dirent (j + 2) f.target).flatten

theorem length_dirent (inum : ℕ) (name : List ℕ) : (dirent inum name).length = 16 := by
  have hd : DIRSIZ = 14 := rfl
  simp only [dirent, List.length_append, List.length_cons, List.length_nil, List.length_take,
    List.length_replicate]
  omega

theorem length_dirent_ne (inum : ℕ) (name : List ℕ) : (dirent inum name).length ≠ 0 := by
  rw [length_dirent]
  decide

theorem entries_concat (files : List Input) (f : Input) : entries (files ++ [f]) =
    entries files ++ dirent (files.length + 2) f.target := by
  unfold entries
  rw [List.zipIdx_append, List.map_append, List.flatten_append]
  simp

theorem length_entries (files : List Input) : (entries files).length = 16 * (files.length + 2) := by
  induction files using List.reverseRecOn with
  | nil => simp [entries, length_dirent]
  | append_singleton files f ih =>
    rw [entries_concat, List.length_append, ih, length_dirent, List.length_append,
      List.length_singleton]
    omega

/-- The root directory has the contents `c` and nothing behind them. -/
structure Root (img : Image) (c : List ℕ) : Prop where
  type : (img.bare.ip ROOTINO).type = T_DIR
  content : img.bare.content ROOTINO = c
  tail : ∀ o, c.length ≤ o → o < MAXFILE * BSIZE → img.bare.byte ROOTINO o = 0
  blocks : ∀ bn < NDIRECT, c.length ≤ bn * BSIZE → (img.bare.ip ROOTINO).addrs bn = 0

/-- **The image after the files `files`**, as long as all inodes are in the inode blocks. -/
structure Built (img : Image) (files : List Input) : Prop where
  sound : Sound img.bare
  fresh : Fresh img
  next : img.freeinode = files.length + 2
  idle : ∀ i < sbAll.ninodes, i = 0 ∨ files.length + 2 ≤ i → (img.bare.ip i).type = 0
  root : Root img (entries files)
  file : ∀ j (hj : j < files.length), img.bare.content (j + 2) = files[j].bytes ∧
    (img.bare.ip (j + 2)).type = T_FILE

theorem root_lt : ROOTINO < sbAll.ninodes := by decide
theorem ninodes_eq : sbAll.ninodes = 208 := by decide

namespace Root

variable {c : List ℕ}

theorem size (h : Root img c) : (img.bare.ip ROOTINO).size = c.length := by
  rw [← img.bare.length_content, h.content]

theorem append (h : Root img c) (ha : Appended img img' ROOTINO p) : Root img' (c ++ p) := by
  have hlen : (c ++ p).length = c.length + p.length := List.length_append
  have hd : NDIRECT = 12 := rfl
  have hm : MAXFILE = 140 := rfl
  refine ⟨ha.type.trans h.type, by rw [ha.content root_lt, h.content], fun o h₁ h₂ => ?_,
    fun bn hbn hge => ?_⟩
  · rw [ha.byte o h₂, h.size, if_neg (by omega)]
    exact h.tail o (by omega) h₂
  · have hslot : slotOf bn = bn := if_pos hbn
    have honly := ha.only bn (by omega) (by rw [h.size]; omega)
    rw [hslot, Store.ref_direct _ hbn.le, Store.ref_direct _ hbn.le] at honly
    rw [honly]
    exact h.blocks bn hbn (by omega)

theorem frame (h : Root img c) (hs : Sound img.bare)
    (hip : img'.bare.ip ROOTINO = img.bare.ip ROOTINO)
    (hblock : ∀ bn < MAXFILE, img'.bare.block ROOTINO bn = img.bare.block ROOTINO bn) :
    Root img' c := by
  refine ⟨by rw [hip, h.type], ?_, fun o h₁ h₂ => ?_, fun bn hbn hge => ?_⟩
  · rw [content_congr hs root_lt hip hblock, h.content]
  · rw [← h.tail o h₁ h₂]
    unfold Store.byte
    rw [hblock _ (bn_lt h₂)]
  · rw [hip]
    exact h.blocks bn hbn hge

end Root

theorem start_disk (b : ℕ) : start.disk b = if b = 1 then superBytes sb else fun _ => 0 := by
  simp only [start, Function.update_apply]

theorem start_fresh : Fresh start := by
  refine ⟨by rw [start_disk, if_pos rfl], le_rfl, fun b hb hlt => ?_⟩
  have hb' : nmeta ≤ b := hb
  rw [nmeta_eq] at hb'
  rw [start_disk, if_neg (by omega)]

theorem start_ip (i : ℕ) (hi : i < sbAll.ninodes) : start.bare.ip i = {} := by
  have hblk : start.bare.disk (IBLOCK i sb) = fun _ => 0 := by
    obtain ⟨h1, -, -⟩ := iblock_lt hi
    rw [show start.bare.disk (IBLOCK i sb) = start.disk (IBLOCK i sb) from view_iblock hi,
      start_disk, if_neg (Nat.ne_of_gt h1)]
  have hz : ∀ o n, getLE (fun _ => 0) o n = 0 := fun o n => getLE_of_zero fun _ _ _ => rfl
  show getDinode (start.bare.disk (IBLOCK i sb)) (i % IPB) = {}
  rw [hblk]
  unfold getDinode
  simp only [hz, ite_self]

theorem start_ref {i : ℕ} (hi : i < sbAll.ninodes) (k : ℕ) : start.bare.ref i k = 0 := by
  unfold Store.ref
  rw [start_ip i hi]
  split_ifs <;> rfl

theorem start_sound : Sound start.bare := by
  have hzero : ∀ {i k : ℕ}, i < sbAll.ninodes → start.bare.ref i k ≠ 0 → False :=
    fun hi h => h (start_ref hi _)
  have h16 : 0 < 2 ^ 16 := by decide
  have h32 : 0 < 2 ^ 32 := by decide
  refine ⟨⟨sbAll_layout, view_super, fun i hi k _ h => (hzero hi h).elim,
    fun i hi k _ i' _ k' _ _ h => (hzero hi h).elim, fun b hb => ?_, by simp, List.nodup_nil⟩,
    fun i hi => ⟨?_, fun o ho => ?_, ?_, rfl, fun _ => ⟨rfl, fun k => ?_⟩⟩⟩
  · have hn : Fs.nmeta start.bare.sb = start.freeblock := nmeta_sbAll
    rw [show start.bare.bit b = _ from view_bit hb, decide_eq_true_iff, hn]
    refine ⟨fun h => .inl h, ?_⟩
    rintro (h | h | ⟨i, hi, k, -, hr⟩)
    · exact h
    · exact absurd h List.not_mem_nil
    · rw [start_ref hi] at hr
      rw [← hr]
      decide
  · rw [start_ip i hi]
    exact Nat.zero_le _
  · rw [start_ip i hi] at ho
    exact absurd ho (Nat.not_lt_zero _)
  · rw [start_ip i hi]
    exact ⟨h16, h16, h16, h16, h32, fun _ => h32, fun _ _ => rfl⟩
  · rw [start_ip i hi]

theorem start_root : ∃ img, ialloc T_DIR start = .ok (ROOTINO, img) ∧ Made start img ROOTINO T_DIR ∧
    Root img [] := by
  obtain ⟨img, he, hm⟩ := ialloc_spec start_sound start_fresh root_lt
    (show (start.bare.ip ROOTINO).type = 0 by rw [start_ip _ root_lt]) (show 0 < T_DIR ∧ T_DIR < 2 ^ 16 by decide)
  have hip : img.bare.ip ROOTINO = { type := T_DIR, nlink := 1 } := hm.ip
  refine ⟨img, he, hm, by rw [hip], ?_, fun o _ h₂ => ?_, fun bn _ _ => by rw [hip]⟩
  · unfold Store.content
    rw [hip]
    rfl
  · unfold Store.byte
    rw [hm.data ROOTINO root_lt _ (bn_lt h₂), Store.block, if_pos (start_ref root_lt _)]

/-- **The root directory with `.` and `..`.** -/
theorem built_start {img₁ img₂ img₃ : Image} (h : ialloc T_DIR start = .ok (ROOTINO, img₁))
    (h' : iappend ROOTINO (dirent ROOTINO [46]) img₁ = .ok img₂)
    (h'' : iappend ROOTINO (dirent ROOTINO [46, 46]) img₂ = .ok img₃) : Built img₃ [] := by
  obtain ⟨img, he, hm, hroot⟩ := start_root
  rw [h] at he
  obtain rfl := (Prod.mk.inj (Except.ok.inj he)).2
  have ht : (img₁.bare.ip ROOTINO).type ≠ 0 := by
    rw [hroot.type]
    decide
  have ha := iappend_spec hm.sound hm.fresh root_lt ht (length_dirent_ne _ _) h'
  have hb := iappend_spec ha.sound ha.fresh root_lt (by rwa [ha.type]) (length_dirent_ne _ _) h''
  have hab := ha.trans hb
  refine ⟨hab.sound, hab.fresh, ?_, fun i hi hidle => ?_, ?_, fun j hj => absurd hj (Nat.not_lt_zero j)⟩
  · rw [(iappend_ahead h'').1, (iappend_ahead h').1, hm.next]
    rfl
  · have hr : ROOTINO = 1 := rfl
    have hi1 : i ≠ ROOTINO := by
      rw [List.length_nil] at hidle
      omega
    rw [(hab.other i hi hi1).1, hm.other i hi hi1, start_ip i hi]
  · exact hroot.append hab

/-- **One more file.** -/
theorem Built.add (h : Built img files) (hn : files.length ≤ 205) (he : addFile img f = .ok img') :
    Built img' (files ++ [f]) := by
  have hlen : (files ++ [f]).length = files.length + 1 := by simp
  have hr : ROOTINO = 1 := rfl
  have hN := ninodes_eq
  have hnext := h.next
  have hi : img.freeinode < sbAll.ninodes := by omega
  unfold addFile at he
  split_ifs at he
  obtain ⟨⟨n, img₁⟩, hal, he⟩ := bind_ok he
  obtain ⟨img₂, happ, hcopy⟩ := bind_ok he
  obtain ⟨img₀, hal', hm⟩ := ialloc_spec h.sound h.fresh hi
    (h.idle _ hi (.inr (by omega))) (show 0 < T_FILE ∧ T_FILE < 2 ^ 16 by decide)
  rw [hal] at hal'
  obtain ⟨rfl, rfl⟩ := Prod.mk.inj (Except.ok.inj hal')
  rw [hnext] at hm hcopy happ hi
  have hne : files.length + 2 ≠ ROOTINO := by omega
  -- the entry of the root directory
  have hroot₁ : Root img₁ (entries files) :=
    h.root.frame h.sound (hm.other _ root_lt hne.symm) (hm.data _ root_lt)
  have ht : (img₁.bare.ip ROOTINO).type ≠ 0 := by
    rw [hroot₁.type]
    decide
  have ha := iappend_spec hm.sound hm.fresh root_lt ht (length_dirent_ne _ _) happ
  -- the bytes of the file
  have hnew : img₂.bare.ip (files.length + 2) = { type := T_FILE, nlink := 1 } :=
    ((ha.other _ hi hne).1).trans hm.ip
  have hc : Appended img₂ img' (files.length + 2) f.bytes :=
    copyLoop_spec _ ha.sound ha.fresh hi (by rw [hnew]; decide) le_rfl hcopy
  have hroot : Root img' (entries (files ++ [f])) := by
    rw [entries_concat]
    exact (hroot₁.append ha).frame ha.sound (hc.other _ root_lt hne.symm).1
      (hc.other _ root_lt hne.symm).2
  have hkeep : ∀ i < sbAll.ninodes, i ≠ ROOTINO → i ≠ files.length + 2 →
      img'.bare.ip i = img.bare.ip i ∧
        ∀ bn < MAXFILE, img'.bare.block i bn = img.bare.block i bn := by
    intro i hi' h₁ h₂
    obtain ⟨h₃, h₄⟩ := hc.other i hi' h₂
    obtain ⟨h₅, h₆⟩ := ha.other i hi' h₁
    refine ⟨h₃.trans (h₅.trans (hm.other i hi' h₂)), fun bn hbn => ?_⟩
    rw [h₄ bn hbn, h₆ bn hbn, hm.data i hi' bn hbn]
  refine ⟨hc.sound, hc.fresh, ?_, fun i hi' hidle => ?_, hroot, fun j hj => ?_⟩
  · rw [(copyLoop_ahead _ hcopy).1, (iappend_ahead happ).1, hm.next, hlen]
  · rw [hlen] at hidle
    rw [(hkeep i hi' (by omega) (by omega)).1]
    exact h.idle i hi' (by omega)
  · rw [hlen] at hj
    by_cases hlast : j < files.length
    · obtain ⟨h₁, h₂⟩ := h.file j hlast
      obtain ⟨h₃, h₄⟩ := hkeep (j + 2) (by omega) (by omega) (by omega)
      rw [content_congr h.sound (show j + 2 < sbAll.ninodes by omega) h₃ h₄, h₃,
        List.getElem_append_left hlast]
      exact ⟨h₁, h₂⟩
    · obtain rfl : j = files.length := by omega
      have hempty : img₂.bare.content (files.length + 2) = [] := by
        unfold Store.content
        rw [hnew]
        rfl
      rw [hc.content hi, hempty, List.nil_append, hc.type, hnew]
      simp

/-- **The image after all files.** -/
theorem Built.addAll (more : List Input) : ∀ {files : List Input} {img img' : Image},
    Built img files → files.length + more.length ≤ 206 → more.foldlM addFile img = .ok img' →
    Built img' (files ++ more) := by
  induction more with
  | nil =>
    intro files img img' h _ he
    obtain rfl := Except.ok.inj he
    rwa [List.append_nil]
  | cons f more ih =>
    intro files img img' h hn he
    rw [List.length_cons] at hn
    rw [List.foldlM_cons] at he
    obtain ⟨img₁, hadd, hrest⟩ := bind_ok he
    have hbuilt := h.add (by omega) hadd
    rw [List.append_cons]
    refine ih hbuilt ?_ hrest
    rw [List.length_append, List.length_singleton]
    omega

theorem addFiles_ok {files : List Input} (h : addFiles files = .ok img) :
    ∃ img₀, Built img₀ [] ∧ files.foldlM addFile img₀ = .ok img := by
  obtain ⟨⟨n, img₁⟩, hal, h⟩ := bind_ok h
  obtain ⟨img₀, hal', hm, hroot⟩ := start_root
  rw [hal] at hal'
  obtain ⟨rfl, rfl⟩ := Prod.mk.inj (Except.ok.inj hal')
  obtain ⟨img₂, h₂, h⟩ := bind_ok h
  obtain ⟨img₃, h₃, h⟩ := bind_ok h
  exact ⟨img₃, built_start hal h₂ h₃, h⟩

end Mkfs

end OsPlayground
