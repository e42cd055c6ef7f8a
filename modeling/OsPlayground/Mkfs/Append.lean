import OsPlayground.Mkfs.Agree

/-!
# What the functions of `mkfs` do

* `Image.bare`: an image as a file system with an empty cache.
* `winode_put`: `winode` writes one inode.
* `Appended`, **`iappend_cases`**: what `iappend` does, and when it fails.
-/

namespace OsPlayground

namespace Mkfs

open Lib Fs

/-- The image with no inode in the cache. -/
def Image.bare (img : Image) : Store := img.view fun _ => none

variable {img img' : Image} {mem : ℕ → Option Inode} {inum i off fuel : ℕ} {din r : Inode}
  {p : List ℕ}

theorem iblock_lt (hi : inum < sbAll.ninodes) :
    1 < IBLOCK inum sb ∧ IBLOCK inum sb < sb.bmapstart ∧ IBLOCK inum sb < FSSIZE := by
  have hlt := sbAll_layout.inodes inum hi
  exact ⟨hlt.1, hlt.2, lt_trans hlt.2 (by decide)⟩

theorem view_iblock (hi : inum < sbAll.ninodes) :
    (img.view mem).disk (IBLOCK inum sb) = img.disk (IBLOCK inum sb) := by
  obtain ⟨h₁, h₂, -⟩ := iblock_lt hi
  exact view_disk (by omega) (by omega)

theorem rinode_eq (hi : inum < sbAll.ninodes) : rinode inum img = .ok (img.bare.ip inum) := by
  have hdin : img.bare.ip inum = getDinode (img.disk (IBLOCK inum sb)) (inum % IPB) :=
    congrArg (fun b => getDinode b (inum % IPB)) (view_iblock hi)
  rw [rinode, rsect_ok (iblock_lt hi).2.2, hdin]
  rfl

/-- The image after `winode`. -/
def wroteInode (inum : ℕ) (r : Inode) (img : Image) : Image :=
  img.wsect (IBLOCK inum sb) (putDinode (img.disk (IBLOCK inum sb)) (inum % IPB) r)

theorem winode_eq (hi : inum < sbAll.ninodes) (r : Inode) (img : Image) :
    winode inum r img = .ok (wroteInode inum r img) := by
  rw [winode, rsect_ok (iblock_lt hi).2.2]
  rfl

/-- **`winode` writes an inode.** -/
theorem winode_put (hi : inum < sbAll.ninodes) (hr : Fits r) (hm : mem inum = none) :
    Put (img.view mem) ((wroteInode inum r img).view mem) inum r := by
  obtain ⟨h₁, h₂, -⟩ := iblock_lt hi
  refine put_of_write hr (.inl hm) ?_
  show (img.view mem).write (IBLOCK inum sb)
    (putDinode ((img.view mem).disk (IBLOCK inum sb)) (inum % IPB) r) = _
  rw [view_iblock hi]
  exact write_view (by omega) (by omega) _

theorem winode_bare (hi : inum < sbAll.ninodes) (hr : Fits r) :
    Put img.bare (wroteInode inum r img).bare inum r := winode_put hi hr rfl

theorem Fresh.winode (hf : Fresh img) (hi : inum < sbAll.ninodes) (r : Inode) :
    Fresh (wroteInode inum r img) := by
  have hlow := hf.low
  obtain ⟨h1, hlt, -⟩ := iblock_lt hi
  rw [nmeta_eq] at hlow
  rw [bmapstart_eq] at hlt
  exact hf.wsect h1 (by omega) _

theorem cached_mem_of_ne (h : i ≠ inum) : (img.cached inum din).mem i = none := by
  simp [Image.cached, Image.view, h]

theorem cached_bare (ht : (img.bare.ip inum).type ≠ 0) :
    Cached img.bare (img.cached inum (img.bare.ip inum)) := by
  refine ⟨rfl, rfl, rfl, fun i _ => ?_, fun i _ hz _ => ?_⟩
  · by_cases hne : i = inum
    · rw [hne, cached_ip]
    · rw [Store.ip, cached_mem_of_ne hne]
      rfl
  · have hne : i ≠ inum := by
      rintro rfl
      exact ht hz
    exact cached_mem_of_ne hne

theorem put_bare (h : Put img.bare img'.bare inum r) : Put (img.cached inum din) img'.bare inum r := by
  refine ⟨h.sb, h.freed, fun i hne => ?_, h.ip, h.dinode, h.other, h.disk⟩
  rw [cached_mem_of_ne hne]
  rfl

/-- `p` was appended to the file `inum`. -/
structure Appended (img img' : Image) (inum : ℕ) (p : List ℕ) : Prop where
  sound : Sound img'.bare
  fresh : Fresh img'
  type : (img'.bare.ip inum).type = (img.bare.ip inum).type
  size : (img'.bare.ip inum).size = (img.bare.ip inum).size + p.length
  byte : ∀ o < MAXFILE * BSIZE, img'.bare.byte inum o =
    if (img.bare.ip inum).size ≤ o ∧ o < (img.bare.ip inum).size + p.length then
      p.getD (o - (img.bare.ip inum).size) 0 else img.bare.byte inum o
  other : ∀ i < sbAll.ninodes, i ≠ inum → img'.bare.ip i = img.bare.ip i ∧
    ∀ bn < MAXFILE, img'.bare.block i bn = img.bare.block i bn
  only : ∀ bn < MAXFILE, (img.bare.ip inum).size + p.length ≤ bn * BSIZE →
    img'.bare.ref inum (slotOf bn) = img.bare.ref inum (slotOf bn)
  spend : img'.bare.free + img.bare.absent inum = img.bare.free + img'.bare.absent inum

theorem readBlock_lt {fbn : ℕ} {x : ℕ × Bytes × Inode × Image} (h : readBlock fbn din img = .ok x) :
    fbn < MAXFILE := by
  obtain ⟨y, hy, -⟩ := bind_ok h
  unfold findBlock at hy
  split_ifs at hy with h₁
  · exact not_le.mp h₁
  · exact not_le.mp h₁

/-- The assertion of the loop keeps the file within `MAXFILE` blocks. -/
theorem appendLoop_bound (fuel : ℕ) : ∀ {off : ℕ} {p : List ℕ} {din : Inode} {img : Image}
    {x : ℕ × Inode × Image}, p.length ≠ 0 → p.length ≤ fuel →
    appendLoop fuel off p din img = .ok x → off + p.length ≤ MAXFILE * BSIZE := by
  induction fuel with
  | zero => exact fun hp hfuel _ => absurd (Nat.le_zero.mp hfuel) hp
  | succ fuel ih =>
    intro off p din img x hp hfuel h
    unfold appendLoop at h
    rw [if_neg hp] at h
    obtain ⟨⟨b, buf, din', img'⟩, hread, hrest⟩ := bind_ok h
    have hbn := readBlock_lt hread
    have hB : BSIZE = 512 := rfl
    have hM : MAXFILE = 140 := rfl
    simp only at hrest
    generalize hn1 : min p.length ((off / BSIZE + 1) * BSIZE - off) = n1 at hrest
    rw [hB] at hn1 hbn ⊢
    by_cases hdone : (p.drop n1).length = 0
    · rw [List.length_drop] at hdone
      omega
    · have hlen : (p.drop n1).length = p.length - n1 := List.length_drop
      have hend := ih hdone (by omega) hrest
      rw [hlen, hB] at hend
      omega

/-! ## The counters -/

/-- The inode counter is the same, and the block counter is not smaller. -/
def Ahead (img img' : Image) : Prop :=
  img'.freeinode = img.freeinode ∧ img.freeblock ≤ img'.freeblock

theorem Ahead.trans {img'' : Image} (h : Ahead img img') (h' : Ahead img' img'') :
    Ahead img img'' := ⟨h'.1.trans h.1, h.2.trans h'.2⟩

theorem takeAddr_ahead (k : ℕ) (din : Inode) (img : Image) : Ahead img (takeAddr k din img).2.2 := by
  unfold takeAddr
  split_ifs
  · exact ⟨rfl, Nat.le_succ _⟩
  · exact ⟨rfl, le_rfl⟩

theorem takeEntry_ahead (b j : ℕ) (indirect : Bytes) (img : Image) :
    Ahead img (takeEntry b j indirect img).2 := by
  unfold takeEntry
  split_ifs
  · exact ⟨rfl, Nat.le_succ _⟩
  · exact ⟨rfl, le_rfl⟩

theorem readBlock_ahead {fbn : ℕ} {x : ℕ × Bytes × Inode × Image}
    (h : readBlock fbn din img = .ok x) : Ahead img x.2.2.2 := by
  obtain ⟨y, hy, hrest⟩ := bind_ok h
  obtain ⟨buf, -, rfl⟩ := map_ok hrest
  unfold findBlock at hy
  split_ifs at hy
  · obtain rfl := Except.ok.inj hy
    exact takeAddr_ahead _ _ _
  · obtain ⟨indirect, -, rfl⟩ := map_ok hy
    exact (takeAddr_ahead _ _ _).trans (takeEntry_ahead _ _ _ _)

theorem appendLoop_ahead (fuel : ℕ) : ∀ {off : ℕ} {p : List ℕ} {din : Inode} {img : Image}
    {x : ℕ × Inode × Image}, appendLoop fuel off p din img = .ok x → Ahead img x.2.2 := by
  induction fuel with
  | zero =>
    intro off p din img x h
    obtain rfl := Except.ok.inj h
    exact ⟨rfl, le_rfl⟩
  | succ fuel ih =>
    intro off p din img x h
    unfold appendLoop at h
    split_ifs at h
    · obtain rfl := Except.ok.inj h
      exact ⟨rfl, le_rfl⟩
    · obtain ⟨⟨b, buf, din', img'⟩, hread, hrest⟩ := bind_ok h
      simp only at hrest
      have hahead := ih hrest
      exact (readBlock_ahead hread).trans hahead

theorem winode_ahead (h : winode inum r img = .ok img') : Ahead img img' := by
  obtain ⟨buf, -, rfl⟩ := map_ok h
  exact ⟨rfl, le_rfl⟩

theorem iappend_ahead (h : iappend inum p img = .ok img') : Ahead img img' := by
  obtain ⟨din, -, h⟩ := bind_ok h
  obtain ⟨⟨off, din', img₁⟩, hloop, h⟩ := bind_ok h
  exact (appendLoop_ahead _ hloop).trans (winode_ahead h)

/-! ## `iappend` -/

/-- **What `iappend` does.** It appends, or the file gets too long, or the disk is too full. -/
theorem iappend_cases (hs : Sound img.bare) (hf : Fresh img) (hi : inum < sbAll.ninodes)
    (ht : (img.bare.ip inum).type ≠ 0) (hp : p.length ≠ 0) :
    (∃ img', iappend inum p img = .ok img' ∧ Appended img img' inum p) ∨
    (∃ e, iappend inum p img = .error e) ∧
      (MAXFILE * BSIZE < (img.bare.ip inum).size + p.length ∨
        img.bare.free < img.bare.absent inum) := by
  have hc := cached_bare ht
  have hs₀ := hc.sound hs
  have hip : (img.cached inum (img.bare.ip inum)).ip inum = img.bare.ip inum := cached_ip
  unfold iappend
  rw [rinode_eq hi]
  show (∃ img', (appendLoop p.length (img.bare.ip inum).size p (img.bare.ip inum) img).bind _ = _ ∧ _) ∨
    (∃ e, (appendLoop p.length (img.bare.ip inum).size p (img.bare.ip inum) img).bind _ = _) ∧ _
  generalize hsize : (img.bare.ip inum).size = off
  have hboth := @appendLoop_agrees inum p.length off p _ _ hs₀.alloc hi hf
  by_cases hmax : off + p.length ≤ MAXFILE * BSIZE
  · rcases writeLoop_spec p.length hs₀.alloc hi cached_isSome hmax le_rfl with
      ⟨he, hlt⟩ | ⟨fs₁, he, hw⟩
    · obtain ⟨e, hx⟩ := hboth.error_right he
      rw [hx]
      refine .inr ⟨⟨e, rfl⟩, .inr ?_⟩
      rwa [hc.free, hc.absent hi] at hlt
    · obtain ⟨⟨off', din', img₁⟩, hx, hy, hf₁⟩ := hboth.ok_right he
      obtain ⟨hoff, rfl⟩ := Prod.mk.inj hy
      simp only at hoff hf₁ hw
      refine .inl ⟨wroteInode inum { din' with size := off' } img₁, ?_, ?_⟩
      · rw [hx]
        exact winode_eq hi _ _
      have hfit := hw.fits hs₀ hi hmax
      rw [cached_ip, hoff] at hfit
      have hput : Put (img₁.cached inum din') (wroteInode inum { din' with size := off' } img₁).bare
          inum { din' with size := off' } := put_bare (winode_bare hi hfit)
      have hstored := hw.stored_grow hs₀ hi (by rwa [hip]) (by rw [hip, hsize])
        hmax (by rw [hip, hsize]; omega) (by rw [cached_ip, hoff]; exact hput)
      refine ⟨hstored.sound, hf₁.winode hi _, by rw [hstored.type, hip], ?_, fun o ho => ?_,
        fun i hi' hne => ?_, fun bn hbn hge => ?_, ?_⟩
      · rw [hstored.size, hip, hsize]
        omega
      · rw [hstored.byte o ho, hsize]
        unfold Store.byte
        rw [hc.block hi]
      · obtain ⟨h₁, h₂⟩ := hstored.other i hi' hne
        exact ⟨h₁.trans (hc.ip i hi'), fun bn hbn => (h₂ bn hbn).trans (hc.block hi' bn)⟩
      · rw [hsize] at hge
        rw [hstored.only bn hbn hge, hc.ref hi]
      · have hspend := hstored.spend
        rwa [hc.free, hc.absent hi] at hspend
  · refine .inr ⟨?_, .inl (by omega)⟩
    cases hx : appendLoop p.length off p (img.bare.ip inum) img with
    | error e => exact ⟨e, rfl⟩
    | ok x => exact absurd (appendLoop_bound _ hp le_rfl hx) hmax

theorem iappend_spec (hs : Sound img.bare) (hf : Fresh img) (hi : inum < sbAll.ninodes)
    (ht : (img.bare.ip inum).type ≠ 0) (hp : p.length ≠ 0) (he : iappend inum p img = .ok img') :
    Appended img img' inum p := by
  rcases iappend_cases hs hf hi ht hp with ⟨img₁, he', ha⟩ | ⟨⟨e, he'⟩, -⟩
  · rw [he] at he'
    obtain rfl := Except.ok.inj he'
    exact ha
  · rw [he] at he'
    cases he'

end Mkfs

end OsPlayground
