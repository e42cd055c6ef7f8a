import OsPlayground.Fs.Content

/-!
# Sound file systems

* `Fits`: an inode fits into a `struct dinode`; `getDinode_putDinode`.
* `Alloc.iupdate`: what `iupdate` changes.
* **`Sound`**: the invariant between calls.
* `writei_cases`, `readi_cases`: what `writei` and `readi` do to a sound file system.
-/

namespace OsPlayground

namespace Fs

open Lib

/-! ## Inodes on the disk -/

/-- The fields have the widths of a `struct dinode`. -/
structure Fits (r : Inode) : Prop where
  type : r.type < 2 ^ 16
  major : r.major < 2 ^ 16
  minor : r.minor < 2 ^ 16
  nlink : r.nlink < 2 ^ 16
  size : r.size < 2 ^ 32
  addrs : ∀ k, r.addrs k < 2 ^ 32
  last : ∀ k, NDIRECT < k → r.addrs k = 0

variable {fs fs' : Store} {inum i k off n : ℕ} {blk : Bytes} {r : Inode} {src : List ℕ}

theorem putDinode_apply (blk : Bytes) (r : Inode) {j : ℕ} (hj : j < 64) :
    putDinode blk k r (64 * k + j) = dinodeByte r j := by
  rw [putDinode, if_pos ⟨by omega, by omega⟩, Nat.add_sub_cancel_left]

/-- An inode is read as it was written. -/
theorem getDinode_putDinode (h : Fits r) : getDinode (putDinode blk k r) k = r := by
  have hfield : ∀ o n w : ℕ, w < 256 ^ n → o + n ≤ 64 →
      (∀ j < n, dinodeByte r (o + j) = byteOf w j) →
      getLE (putDinode blk k r) (64 * k + o) n = w := by
    intro o n w hw ho hj
    refine getLE_of_bytes hw fun j hj' => ?_
    rw [Nat.add_assoc, putDinode_apply blk r (by omega), hj j hj']
  obtain ⟨type, major, minor, nlink, size, addrs⟩ := r
  unfold getDinode
  congr 1
  · refine hfield 0 2 type h.type (by omega) fun j hj => ?_
    simp [dinodeByte, hj]
  · refine hfield 2 2 major h.major (by omega) fun j hj => ?_
    rw [dinodeByte, if_neg (by omega), if_pos (by omega), Nat.add_sub_cancel_left]
  · refine hfield 4 2 minor h.minor (by omega) fun j hj => ?_
    rw [dinodeByte, if_neg (by omega), if_neg (by omega), if_pos (by omega),
      Nat.add_sub_cancel_left]
  · refine hfield 6 2 nlink h.nlink (by omega) fun j hj => ?_
    rw [dinodeByte, if_neg (by omega), if_neg (by omega), if_neg (by omega), if_pos (by omega),
      Nat.add_sub_cancel_left]
  · refine hfield 8 4 size h.size (by omega) fun j hj => ?_
    rw [dinodeByte, if_neg (by omega), if_neg (by omega), if_neg (by omega), if_neg (by omega),
      if_pos (by omega), Nat.add_sub_cancel_left]
  · funext a
    have hd : NDIRECT = 12 := rfl
    split_ifs with ha
    · rw [Nat.add_assoc]
      refine hfield (12 + 4 * a) 4 (addrs a) (h.addrs a) (by omega) fun j hj => ?_
      have hdiv : (12 + 4 * a + j - 12) / 4 = a := by omega
      have hmod : (12 + 4 * a + j - 12) % 4 = j := by omega
      rw [dinodeByte, if_neg (by omega), if_neg (by omega), if_neg (by omega), if_neg (by omega),
        if_neg (by omega), hdiv, hmod]
    · exact (h.last a (by omega)).symm

theorem getDinode_putDinode_of_ne {k' : ℕ} (h : k' ≠ k) :
    getDinode (putDinode blk k r) k' = getDinode blk k' := by
  have hfield : ∀ o n : ℕ, o + n ≤ 64 →
      getLE (putDinode blk k r) (64 * k' + o) n = getLE blk (64 * k' + o) n := by
    intro o n ho
    refine getLE_congr fun i h₁ h₂ => ?_
    rw [putDinode, if_neg (by omega)]
  unfold getDinode
  congr 1
  · exact hfield 0 2 (by omega)
  · exact hfield 2 2 (by omega)
  · exact hfield 4 2 (by omega)
  · exact hfield 6 2 (by omega)
  · exact hfield 8 4 (by omega)
  · funext a
    have hd : NDIRECT = 12 := rfl
    split_ifs with ha
    · rw [Nat.add_assoc]
      exact hfield (12 + 4 * a) 4 (by omega)
    · rfl

theorem iblock_ne {i inum : ℕ} {sb : Superblock} (h : IBLOCK i sb = IBLOCK inum sb)
    (hne : i ≠ inum) : i % IPB ≠ inum % IPB := by
  have hI : IPB = 8 := rfl
  have hdiv : i / IPB = inum / IPB := Nat.add_right_cancel h
  rw [hI] at hdiv ⊢
  omega

namespace Store

@[simp] theorem setIp_disk (f : Inode → Inode) : (fs.setIp i f).disk = fs.disk := rfl
@[simp] theorem setIp_sb (f : Inode → Inode) : (fs.setIp i f).sb = fs.sb := rfl
@[simp] theorem setIp_freed (f : Inode → Inode) : (fs.setIp i f).freed = fs.freed := rfl

theorem setIp_ip (fs : Store) (i : ℕ) (f : Inode → Inode) : (fs.setIp i f).ip i = f (fs.ip i) := by
  simp [ip, setIp]

theorem setIp_mem (fs : Store) (i : ℕ) (f : Inode → Inode) : (fs.setIp i f).mem i = some (f (fs.ip i)) := by
  simp [setIp]

theorem setIp_mem_of_ne (f : Inode → Inode) (h : k ≠ i) : (fs.setIp i f).mem k = fs.mem k := by
  simp [setIp, h]

theorem setIp_ip_of_ne (f : Inode → Inode) (h : k ≠ i) : (fs.setIp i f).ip k = fs.ip k := by
  rw [ip, ip, setIp_mem_of_ne f h]
  rfl

theorem ip_of_mem (h : fs.mem i = some r) : fs.ip i = r := by
  rw [ip, h]
  rfl

end Store

/-! ## Writing an inode -/

/-- The inode `inum` is `r`, also on the disk, and the rest is as before. -/
structure Put (fs fs' : Store) (inum : ℕ) (r : Inode) : Prop where
  sb : fs'.sb = fs.sb
  freed : fs'.freed = fs.freed
  mem : ∀ i, i ≠ inum → fs'.mem i = fs.mem i
  ip : fs'.ip inum = r
  dinode : fs'.dinode inum = r
  other : ∀ i, i ≠ inum → fs'.dinode i = fs.dinode i
  disk : ∀ x, x ≠ IBLOCK inum fs.sb → fs'.disk x = fs.disk x

theorem put_of_write (hr : Fits r) (hm : fs.mem inum = none ∨ fs.mem inum = some r)
    (ht : fs.write (IBLOCK inum fs.sb)
      (putDinode (fs.disk (IBLOCK inum fs.sb)) (inum % IPB) r) = fs') : Put fs fs' inum r := by
  have hself : fs'.disk (IBLOCK inum fs.sb) =
      putDinode (fs.disk (IBLOCK inum fs.sb)) (inum % IPB) r := by
    rw [← ht]
    exact Function.update_self _ _ _
  have hne : ∀ x, x ≠ IBLOCK inum fs.sb → fs'.disk x = fs.disk x := fun x hx => by
    rw [← ht]
    exact Function.update_of_ne hx _ _
  have hsb : fs'.sb = fs.sb := by rw [← ht]; rfl
  have hmem : fs'.mem = fs.mem := by rw [← ht]; rfl
  have hdi : fs'.dinode inum = r := by
    rw [Store.dinode, hsb, hself, getDinode_putDinode hr]
  refine ⟨hsb, by rw [← ht]; rfl, fun i _ => congrFun hmem i, ?_, hdi, fun i hi => ?_, hne⟩
  · rw [Store.ip, hmem, hdi]
    rcases hm with hm | hm
    · rw [hm]
      rfl
    · rw [hm]
      rfl
  · rw [Store.dinode, Store.dinode, hsb]
    by_cases hb : IBLOCK i fs.sb = IBLOCK inum fs.sb
    · rw [hb, hself, getDinode_putDinode_of_ne (iblock_ne hb hi)]
    · rw [hne _ hb]

theorem update_put (f : Inode → Inode) (h : Fits (f (fs.ip inum))) :
    Put fs (iupdate inum (fs.setIp inum f)) inum (f (fs.ip inum)) ∧
      (iupdate inum (fs.setIp inum f)).mem inum = some (f (fs.ip inum)) := by
  have hip := Store.setIp_ip fs inum f
  have hm := Store.setIp_mem fs inum f
  have hp : Put (fs.setIp inum f) (iupdate inum (fs.setIp inum f)) inum (f (fs.ip inum)) := by
    refine put_of_write h (.inr hm) ?_
    rw [← hip]
    rfl
  exact ⟨⟨hp.sb, hp.freed, fun i hi => (hp.mem i hi).trans (Store.setIp_mem_of_ne f hi), hp.ip,
    hp.dinode, fun i hi => hp.other i hi, hp.disk⟩, hm⟩

namespace Put

theorem ip_other (h : Put fs fs' inum r) (hi : i ≠ inum) : fs'.ip i = fs.ip i := by
  rw [Store.ip, Store.ip, h.mem i hi, h.other i hi]

theorem area (h : Put fs fs' inum r) (hl : Layout fs.sb) (hi : inum < fs.sb.ninodes) :
    fs'.disk 1 = fs.disk 1 ∧ (∀ b < fs.sb.size, fs'.bit b = fs.bit b) ∧
      ∀ x, nmeta fs.sb ≤ x → fs'.disk x = fs.disk x := by
  have hI := hl.inodes inum hi
  refine ⟨h.disk 1 (by omega), fun b hb => ?_, fun x hx => h.disk x ((hl.data hx).2.2 inum hi).symm⟩
  unfold Store.bit
  rw [h.sb, h.disk _ ((hl.bblock hb).2.2 inum hi).symm]

theorem ref (h : Put fs fs' inum r) (ha : Alloc fs []) (hi : inum < fs.sb.ninodes)
    (haddrs : r.addrs = (fs.ip inum).addrs) (hlt : i < fs.sb.ninodes) (k : ℕ) :
    fs'.ref i k = fs.ref i k := by
  have hi' : (fs'.ip i).addrs = (fs.ip i).addrs := by
    by_cases hne : i = inum
    · rw [hne, h.ip, haddrs]
    · rw [h.ip_other hne]
  refine Store.ref_congr_addrs hi' fun hind => (h.area ha.layout hi).2.2 _ ?_
  rw [← Store.ref_direct fs le_rfl] at hind ⊢
  exact (ha.range i hlt _ ndirect_lt hind).1

theorem alloc (h : Put fs fs' inum r) (ha : Alloc fs []) (hi : inum < fs.sb.ninodes)
    (haddrs : r.addrs = (fs.ip inum).addrs) : Alloc fs' [] :=
  ha.same h.sb (h.area ha.layout hi).1 (fun _ hlt k _ => h.ref ha hi haddrs hlt k)
    (h.area ha.layout hi).2.1

theorem block {bn : ℕ} (h : Put fs fs' inum r) (ha : Alloc fs []) (hi : inum < fs.sb.ninodes)
    (haddrs : r.addrs = (fs.ip inum).addrs) (hlt : i < fs.sb.ninodes) (hbn : bn < MAXFILE) :
    fs'.block i bn = fs.block i bn := by
  unfold Store.block
  rw [h.ref ha hi haddrs hlt]
  split_ifs with hz
  · rfl
  · exact (h.area ha.layout hi).2.2 _ (ha.range i hlt _ (slotOf_lt hbn) hz).1

theorem spend (h : Put fs fs' inum r) (ha : Alloc fs []) (hi : inum < fs.sb.ninodes)
    (haddrs : r.addrs = (fs.ip inum).addrs) (hlt : i < fs.sb.ninodes) :
    fs'.free = fs.free ∧ fs'.absent i = fs.absent i := by
  refine ⟨?_, ?_⟩
  · unfold Store.free
    rw [h.sb]
    exact congrArg Finset.card (Finset.filter_congr fun b hb => by
      rw [(h.area ha.layout hi).2.1 b (Finset.mem_range.mp hb)])
  · unfold Store.absent
    exact congrArg Finset.card (Finset.filter_congr fun k _ => by
      rw [h.ref ha hi haddrs hlt k])

end Put

/-! ## The invariant -/

/-- Between calls an inode is on the disk as it is in the cache, its blocks below the size are
there, and one that is not in use has none. -/
structure Proper (fs : Store) (i : ℕ) : Prop where
  size : (fs.ip i).size ≤ MAXFILE * BSIZE
  mapped : ∀ o < (fs.ip i).size, fs.ref i (slotOf (o / BSIZE)) ≠ 0
  fits : Fits (fs.ip i)
  synced : fs.dinode i = fs.ip i
  idle : (fs.ip i).type = 0 → fs.mem i = none ∧ ∀ k, (fs.ip i).addrs k = 0

/-- **A sound file system.** -/
structure Sound (fs : Store) : Prop where
  alloc : Alloc fs []
  proper : ∀ i < fs.sb.ninodes, Proper fs i

theorem Proper.congr (h : Proper fs i) (hip : fs'.ip i = fs.ip i)
    (hdi : fs'.dinode i = fs.dinode i) (hmem : fs'.mem i = fs.mem i)
    (href : ∀ k < NSLOT, fs.ref i k ≠ 0 → fs'.ref i k = fs.ref i k) : Proper fs' i := by
  refine ⟨?_, fun o ho => ?_, ?_, ?_, ?_⟩
  · rw [hip]
    exact h.size
  · rw [hip] at ho
    have hsize := h.size
    rw [href _ (slotOf_lt (bn_lt (by omega))) (h.mapped o ho)]
    exact h.mapped o ho
  · rw [hip]
    exact h.fits
  · rw [hip, hdi, h.synced]
  · rw [hip, hmem]
    exact h.idle

theorem Put.sound (hp : Put fs fs' inum r) (ha : Alloc fs []) (hi : inum < fs.sb.ninodes)
    (haddrs : r.addrs = (fs.ip inum).addrs) (hr : Fits r) (hsize : r.size ≤ MAXFILE * BSIZE)
    (hmapped : ∀ o < r.size, fs.ref inum (slotOf (o / BSIZE)) ≠ 0)
    (hidle : r.type = 0 → fs'.mem inum = none ∧ ∀ k, r.addrs k = 0)
    (hother : ∀ i < fs.sb.ninodes, i ≠ inum → Proper fs i) : Sound fs' := by
  refine ⟨hp.alloc ha hi haddrs, fun i hlt => ?_⟩
  rw [hp.sb] at hlt
  by_cases hne : i = inum
  · subst hne
    refine ⟨by rw [hp.ip]; exact hsize, fun o ho => ?_, by rw [hp.ip]; exact hr,
      by rw [hp.ip, hp.dinode], by rw [hp.ip]; exact hidle⟩
    rw [hp.ip] at ho
    rw [hp.ref ha hi haddrs hi]
    exact hmapped o ho
  · exact (hother i hlt hne).congr (hp.ip_other hne) (hp.other i hne) (hp.mem i hne)
      fun k _ _ => hp.ref ha hi haddrs hlt k

/-- Only the cache changes, and it holds what is on the disk. -/
structure Cached (fs fs' : Store) : Prop where
  sb : fs'.sb = fs.sb
  disk : fs'.disk = fs.disk
  freed : fs'.freed = fs.freed
  ip : ∀ i < fs.sb.ninodes, fs'.ip i = fs.ip i
  mem : ∀ i < fs.sb.ninodes, (fs.ip i).type = 0 → fs.mem i = none → fs'.mem i = none

theorem Cached.ref (h : Cached fs fs') (hi : i < fs.sb.ninodes) (k : ℕ) :
    fs'.ref i k = fs.ref i k := Store.ref_congr (h.ip i hi) fun _ => by rw [h.disk]

theorem Cached.absent (h : Cached fs fs') (hi : i < fs.sb.ninodes) : fs'.absent i = fs.absent i :=
  congrArg Finset.card (Finset.filter_congr fun k _ => by rw [h.ref hi])

theorem Cached.free (h : Cached fs fs') : fs'.free = fs.free := by
  unfold Store.free Store.bit
  rw [h.sb, h.disk]

theorem Cached.block (h : Cached fs fs') (hi : i < fs.sb.ninodes) (bn : ℕ) :
    fs'.block i bn = fs.block i bn := by
  unfold Store.block
  rw [h.ref hi, h.disk]

theorem Cached.sound (h : Cached fs fs') (hs : Sound fs) : Sound fs' := by
  refine ⟨hs.alloc.same h.sb (by rw [h.disk]) (fun i hi k _ => h.ref hi k) fun b _ => ?_,
    fun i hi => ?_⟩
  · unfold Store.bit
    rw [h.sb, h.disk]
  · rw [h.sb] at hi
    have hp := hs.proper i hi
    have hdi : fs'.dinode i = fs.dinode i := by
      unfold Store.dinode
      rw [h.sb, h.disk]
    have hip := h.ip i hi
    refine ⟨by rw [hip]; exact hp.size, fun o ho => ?_, by rw [hip]; exact hp.fits,
      by rw [hip, hdi, hp.synced], fun ht => ?_⟩
    · rw [hip] at ho
      rw [h.ref hi]
      exact hp.mapped o ho
    · rw [hip] at ht ⊢
      exact ⟨h.mem i hi ht (hp.idle ht).1, (hp.idle ht).2⟩

/-! ## Reading and writing -/

theorem Store.mem_of_cached (h : (fs.mem i).isSome = true) : fs.mem i = some (fs.ip i) := by
  obtain ⟨r, hr⟩ := Option.isSome_iff_exists.mp h
  rw [Store.ip_of_mem hr, hr]

theorem Grown.fits (h : Grown fs fs' inum) (ha : Alloc fs' []) (hi : inum < fs.sb.ninodes)
    (hf : Fits (fs.ip inum)) : Fits (fs'.ip inum) := by
  obtain ⟨a, hip, hlast⟩ := h.ip
  have hd : NDIRECT = 12 := rfl
  have hn : NSLOT = 141 := rfl
  have hzero : ∀ k, NDIRECT < k → a k = 0 := fun k hk => (hlast k hk).trans (hf.last k hk)
  have haddr : ∀ k, (fs'.ip inum).addrs k = a k := fun k => by rw [hip]
  refine hip ▸ ⟨hf.type, hf.major, hf.minor, hf.nlink, hf.size, fun k => ?_, hzero⟩
  show a k < 2 ^ 32
  by_cases hk : NDIRECT < k
  · rw [hzero k hk]
    decide
  by_cases hz : a k = 0
  · rw [hz]
    decide
  have hr := Store.ref_direct (i := inum) fs' (not_lt.mp hk)
  have hrange := ha.range inum (by rwa [h.sb]) k (by omega) (by rwa [hr, haddr])
  have hsize := ha.layout.size
  rw [hr, haddr] at hrange
  omega

theorem Grown.proper (h : Grown fs fs' inum) (hs : Sound fs) (hi : i < fs.sb.ninodes)
    (hne : i ≠ inum) : Proper fs' i :=
  (hs.proper i hi).congr (h.ip_other hi hne) (h.dinode hi) (h.mem i hne) fun k hk _ =>
    h.other i hi hne k hk

/-- `src` was written at the offset `off`. -/
structure Stored (fs fs' : Store) (inum off : ℕ) (src : List ℕ) : Prop where
  sound : Sound fs'
  sb : fs'.sb = fs.sb
  freed : fs'.freed = fs.freed
  mem : ∀ i, i ≠ inum → fs'.mem i = fs.mem i
  type : (fs'.ip inum).type = (fs.ip inum).type
  size : (fs'.ip inum).size = max (fs.ip inum).size (off + src.length)
  byte : ∀ o < MAXFILE * BSIZE, fs'.byte inum o =
    if off ≤ o ∧ o < off + src.length then src.getD (o - off) 0 else fs.byte inum o
  other : ∀ i < fs.sb.ninodes, i ≠ inum → fs'.ip i = fs.ip i ∧
    ∀ bn < MAXFILE, fs'.block i bn = fs.block i bn
  only : ∀ bn < MAXFILE, off + src.length ≤ bn * BSIZE →
    fs'.ref inum (slotOf bn) = fs.ref inum (slotOf bn)
  spend : fs'.free + fs.absent inum = fs.free + fs'.absent inum

theorem Written.stored_within {fs₁ : Store} (h : Sound fs) (hi : inum < fs.sb.ninodes)
    (hc : (fs.mem inum).isSome = true) (hw : Written fs fs₁ inum off src)
    (hin : off ≤ (fs.ip inum).size) (hend : ¬ (src.length > 0 ∧ off + src.length > (fs.ip inum).size)) :
    Stored fs fs₁ inum off src := by
  have hproper := h.proper inum hi
  have hip : fs₁.ip inum = fs.ip inum := hw.same fun o h₁ h₂ => hproper.mapped o (by omega)
  have hg := hw.grown
  have hsound : Sound fs₁ := by
    refine ⟨hw.alloc, fun i hi' => ?_⟩
    rw [hg.sb] at hi'
    by_cases hne : i = inum
    · subst hne
      refine hproper.congr hip (hg.dinode hi) ?_ fun k hk hr => hg.ref i hi k hk hr
      rw [Store.mem_of_cached hg.cached, Store.mem_of_cached hc, hip]
    · exact hg.proper h hi' hne
  refine ⟨hsound, hg.sb, hg.freed, hg.mem, by rw [hip], ?_, hw.byte,
    fun i hi' hne => ⟨hg.ip_other hi' hne, hw.other i hi' hne⟩, hw.only, hg.spend⟩
  rw [hip]
  omega

theorem Written.fits {fs₁ : Store} (h : Sound fs) (hi : inum < fs.sb.ninodes)
    (hw : Written fs fs₁ inum off src) (hmax : off + src.length ≤ MAXFILE * BSIZE) :
    Fits { fs₁.ip inum with size := off + src.length } := by
  have hfit := hw.grown.fits hw.alloc hi (h.proper inum hi).fits
  exact ⟨hfit.type, hfit.major, hfit.minor, hfit.nlink, lt_of_le_of_lt hmax (by decide), hfit.addrs,
    hfit.last⟩

/-- A write that makes the file longer, and the size. -/
theorem Written.stored_grow {fs₁ : Store} (h : Sound fs) (hi : inum < fs.sb.ninodes)
    (htype : (fs.ip inum).type ≠ 0) (hw : Written fs fs₁ inum off src)
    (hin : off ≤ (fs.ip inum).size) (hmax : off + src.length ≤ MAXFILE * BSIZE)
    (hend : off + src.length > (fs.ip inum).size)
    (hp : Put fs₁ fs' inum { fs₁.ip inum with size := off + src.length }) :
    Stored fs fs' inum off src := by
  have hproper := h.proper inum hi
  have hg := hw.grown
  have hi₁ : inum < fs₁.sb.ninodes := by rwa [hg.sb]
  have htype₁ : (fs₁.ip inum).type = (fs.ip inum).type := by
    obtain ⟨a, hip, -⟩ := hg.ip
    rw [hip]
  have hsound : Sound fs' := by
    refine hp.sound hw.alloc hi₁ rfl (hw.fits h hi hmax) hmax (fun o ho => ?_)
      (fun hz => absurd (htype₁.symm.trans hz) htype) fun i hi' hne => ?_
    · by_cases hlt : o < off
      · have hr := hproper.mapped o (by omega)
        rw [hg.ref inum hi _ (slotOf_lt (bn_lt (by omega))) hr]
        exact hr
      · exact hw.mapped o (by omega) ho
    · exact hg.proper h (hg.sb ▸ hi') hne
  have hblock : ∀ i < fs.sb.ninodes, ∀ bn < MAXFILE, fs'.block i bn = fs₁.block i bn :=
    fun i hi' bn hbn => hp.block hw.alloc hi₁ rfl (hg.sb.symm ▸ hi') hbn
  refine ⟨hsound, hp.sb.trans hg.sb, hp.freed.trans hg.freed,
    fun i hne => (hp.mem i hne).trans (hg.mem i hne), by rw [hp.ip]; exact htype₁, ?_,
    fun o ho => ?_, fun i hi' hne => ⟨(hp.ip_other hne).trans (hg.ip_other hi' hne),
      fun bn hbn => (hblock i hi' bn hbn).trans (hw.other i hi' hne bn hbn)⟩,
    fun bn hbn hge => ?_, ?_⟩
  · rw [hp.ip]
    show off + src.length = _
    omega
  · rw [Store.byte, hblock inum hi _ (bn_lt ho)]
    exact hw.byte o ho
  · rw [hp.ref hw.alloc hi₁ rfl hi₁, hw.only bn hbn hge]
  · obtain ⟨hfree, habsent⟩ := hp.spend hw.alloc hi₁ rfl hi₁
    rw [hfree, habsent]
    exact hg.spend

theorem Sound.type_ne (h : Sound fs) (hi : inum < fs.sb.ninodes)
    (hc : (fs.mem inum).isSome = true) : (fs.ip inum).type ≠ 0 := fun hz => by
  rw [((h.proper inum hi).idle hz).1] at hc
  exact absurd hc (by decide)

/-- **What `writei` does.** -/
theorem writei_cases (h : Sound fs) (hi : inum < fs.sb.ninodes)
    (hc : (fs.mem inum).isSome = true) (hdev : (fs.ip inum).type ≠ T_DEV) (hoff : off < 2 ^ 32)
    (hn : src.length < 2 ^ 32) :
    (off > (fs.ip inum).size ∨ 2 ^ 32 ≤ off + src.length ∨ off + src.length > MAXFILE * BSIZE) ∧
      writei inum off src fs = .ok (.failed, fs) ∨
    (off ≤ (fs.ip inum).size ∧ off + src.length < 2 ^ 32 ∧ off + src.length ≤ MAXFILE * BSIZE) ∧
      (writei inum off src fs = .error "balloc: out of blocks" ∧ fs.free < fs.absent inum ∨
        ∃ fs', writei inum off src fs = .ok (.written src.length, fs') ∧
          Stored fs fs' inum off src ∧ (fs'.mem inum).isSome = true) := by
  unfold writei
  simp only [if_neg hdev]
  by_cases h₁ : off > (fs.ip inum).size ∨ (off + src.length) % 2 ^ 32 < off
  · rw [if_pos h₁]
    exact .inl ⟨by omega, rfl⟩
  rw [if_neg h₁]
  have hmod : (off + src.length) % 2 ^ 32 = off + src.length := Nat.mod_eq_of_lt (by omega)
  by_cases h₂ : (off + src.length) % 2 ^ 32 > MAXFILE * BSIZE
  · rw [if_pos h₂]
    exact .inl ⟨by omega, rfl⟩
  rw [if_neg h₂]
  rw [hmod] at h₁ h₂
  refine .inr ⟨by omega, ?_⟩
  rcases writeLoop_spec src.length h.alloc hi hc (not_lt.mp h₂) le_rfl with ⟨he, hlt⟩ | ⟨fs₁, he, hw⟩
  · exact .inl ⟨by rw [he]; rfl, hlt⟩
  refine .inr ?_
  rw [he]
  have hsize : (fs₁.ip inum).size = (fs.ip inum).size := by
    obtain ⟨a, hip, -⟩ := hw.grown.ip
    rw [hip]
  by_cases hend : src.length > 0 ∧ off + src.length > (fs.ip inum).size
  · obtain ⟨hp, hm⟩ := update_put (fun r => { r with size := off + src.length })
      (hw.fits h hi (not_lt.mp h₂))
    refine ⟨_, ?_, hw.stored_grow h hi (h.type_ne hi hc) (by omega) (not_lt.mp h₂) hend.2 hp,
      by rw [hm]; rfl⟩
    show Except.ok (if _ then _ else _) = _
    rw [hsize, if_pos hend]
  · refine ⟨fs₁, ?_, hw.stored_within h hi hc (by omega) hend, hw.grown.cached⟩
    show Except.ok (if _ then _ else _) = _
    rw [hsize, if_neg hend]

/-- **What `readi` does** when all blocks are there. It changes nothing. -/
theorem readi_eq (hsize : (fs.ip inum).size ≤ MAXFILE * BSIZE)
    (hmapped : ∀ o < (fs.ip inum).size, fs.ref inum (slotOf (o / BSIZE)) ≠ 0)
    (hdev : (fs.ip inum).type ≠ T_DEV) (hoff : off < 2 ^ 32) (hn : n < 2 ^ 32) :
    readi inum off n fs = .ok (if off > (fs.ip inum).size ∨ 2 ^ 32 ≤ off + n then .failed
      else .read ((List.range' off (min n ((fs.ip inum).size - off))).map (fs.byte inum)), fs) := by
  unfold readi
  simp only [if_neg hdev]
  by_cases h₁ : off > (fs.ip inum).size ∨ (off + n) % 2 ^ 32 < off
  · rw [if_pos h₁, if_pos (by omega)]
  have hmod : (off + n) % 2 ^ 32 = off + n := Nat.mod_eq_of_lt (by omega)
  have hok : ¬ (off > (fs.ip inum).size ∨ 2 ^ 32 ≤ off + n) := by omega
  rw [if_neg h₁, if_neg hok, hmod]
  rw [hmod] at h₁
  have hmin : (if off + n > (fs.ip inum).size then (fs.ip inum).size - off else n) =
      min n ((fs.ip inum).size - off) := by
    split_ifs <;> omega
  rw [hmin, readLoop_spec _ (by omega) (fun o _ h₂ => hmapped o (by omega)) le_rfl]
  rfl

theorem readi_all (hsize : (fs.ip inum).size ≤ MAXFILE * BSIZE)
    (hmapped : ∀ o < (fs.ip inum).size, fs.ref inum (slotOf (o / BSIZE)) ≠ 0)
    (hdev : (fs.ip inum).type ≠ T_DEV) :
    readi inum 0 (fs.ip inum).size fs = .ok (.read (fs.content inum), fs) := by
  have hmax : MAXFILE * BSIZE < 2 ^ 32 := by decide
  have h0 : 0 < 2 ^ 32 := by decide
  rw [readi_eq hsize hmapped hdev h0 (by omega), if_neg (by omega), Nat.sub_zero, Nat.min_self,
    ← List.range_eq_range']
  rfl

/-! ## A small disk -/

/-- A disk of 200 blocks with an empty file, which is in the cache. -/
def image : Store where
  sb := { size := 200, nblocks := 196, ninodes := 8, nlog := 0, logstart := 2, inodestart := 2,
          bmapstart := 3 }
  disk b o :=
    if b = 1 then [200, 0, 0, 0, 196, 0, 0, 0, 8, 0, 0, 0, 0, 0, 0, 0, 2, 0, 0, 0, 2, 0, 0, 0, 3].getD o 0
    else if b = 2 ∧ o = 64 then T_FILE
    else if b = 3 ∧ o = 0 then 15
    else 0
  mem := Function.update (fun _ => none) 1 (some { type := T_FILE })

theorem image_dinode {i : ℕ} (hi : i < 8) :
    image.dinode i = { type := if i = 1 then T_FILE else 0 } := by
  have hdisk : ∀ o, o ≠ 64 → image.disk 2 o = 0 := fun o ho => by
    simp [image, ho]
  have hzero : ∀ o n, 64 < o ∨ o + n ≤ 64 → getLE (image.disk 2) o n = 0 := fun o n ho =>
    getLE_of_zero fun j h₁ h₂ => hdisk j (by omega)
  have hblock : IBLOCK i image.sb = 2 := by
    show i / 8 + 2 = 2
    omega
  have hmod : i % IPB = i := Nat.mod_eq_of_lt hi
  have hd : NDIRECT = 12 := rfl
  unfold Store.dinode getDinode
  rw [hblock, hmod]
  congr 1
  · by_cases h1 : i = 1
    · rw [h1]
      rfl
    · rw [if_neg h1]
      exact hzero _ _ (by omega)
  · exact hzero _ _ (by omega)
  · exact hzero _ _ (by omega)
  · exact hzero _ _ (by omega)
  · exact hzero _ _ (by omega)
  · funext k
    split_ifs with hk
    · exact hzero _ _ (by omega)
    · rfl

theorem image_ip {i : ℕ} (hi : i < 8) : image.ip i = { type := if i = 1 then T_FILE else 0 } := by
  by_cases h1 : i = 1
  · rw [h1]
    rfl
  · rw [Store.ip, image_dinode hi]
    simp [image, h1]

theorem image_ref {i : ℕ} (hi : i < 8) (k : ℕ) : image.ref i k = 0 := by
  unfold Store.ref
  rw [image_ip hi]
  split_ifs <;> rfl

theorem image_bit : ∀ b < 200, image.bit b = decide (b < 4) := by decide +kernel

theorem image_sound : Sound image := by
  have hzero : ∀ {i k : ℕ}, i < 8 → image.ref i k ≠ 0 → False := fun hi h => h (image_ref hi _)
  refine ⟨⟨⟨fun i hi => ?_, by decide, fun b hb => ?_, by decide⟩, by decide,
    fun i hi k _ h => (hzero hi h).elim, fun i hi k _ i' _ k' _ _ h => (hzero hi h).elim,
    fun b hb => ?_, by simp, List.nodup_nil⟩, fun i hi => ⟨?_, fun o ho => ?_, ?_, ?_, fun ht => ?_⟩⟩
  · have hi' : i < 8 := hi
    show 1 < i / 8 + 2 ∧ i / 8 + 2 < 3
    omega
  · have hb' : b < 200 := hb
    show b / 4096 + 3 < 4
    omega
  · rw [image_bit b hb, decide_eq_true_iff]
    refine ⟨fun h => .inl h, ?_⟩
    rintro (h | h | ⟨i, hi, k, -, hr⟩)
    · exact h
    · exact absurd h List.not_mem_nil
    · rw [image_ref hi] at hr
      omega
  · rw [image_ip hi]
    exact Nat.zero_le _
  · rw [image_ip hi] at ho
    exact absurd ho (Nat.not_lt_zero _)
  · rw [image_ip hi]
    have h16 : 0 < 2 ^ 16 := by decide
    have h32 : 0 < 2 ^ 32 := by decide
    refine ⟨?_, h16, h16, h16, h32, fun _ => h32, fun _ _ => rfl⟩
    show (if i = 1 then T_FILE else 0) < _
    split_ifs <;> decide
  · rw [image_dinode hi, image_ip hi]
  · rw [image_ip hi] at ht ⊢
    have h1 : i ≠ 1 := by
      rintro rfl
      exact absurd ht (by decide)
    exact ⟨by simp [image, h1], fun _ => rfl⟩

end Fs

end OsPlayground
