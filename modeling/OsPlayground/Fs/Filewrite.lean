import OsPlayground.Fs.Sound
import OsPlayground.Log.Model

/-!
# `filewrite`

The loop of `filewrite` in `file.c`, which writes a file a few blocks at a time, so that no
transaction goes past `MAXOPBLOCKS`.

* `writeiLog`, ...: the blocks that a call gives to `log_write`, in order.
* `filewriteLoop`: the loop.
* `writei_logged`: a `writei` of a chunk logs four data blocks, the indirect block, the inode and
  blocks of the free map at most.
* **`filewrite_spec`**: the chunks together do what one `writei` would, or stop at the end of the
  largest file, and every transaction is within the bound.
-/

namespace OsPlayground

namespace Fs

open Lib

/-! ## What is logged -/

/-- The blocks that `balloc` logs. -/
def ballocLog (fs : Store) : List ℕ :=
  match freeBlock fs with
  | some b => [BBLOCK b fs.sb, b]
  | none => []

/-- What `bmap` logs for a block of its own array `addrs`. -/
def mapAddrLog (inum k : ℕ) (fs : Store) : List ℕ :=
  if (fs.ip inum).addrs k = 0 then ballocLog fs else []

/-- What it logs for entry `j` of the indirect block `b`. -/
def mapIndirectLog (b j : ℕ) (fs : Store) : List ℕ :=
  if getLE (fs.disk b) (4 * j) 4 = 0 then ballocLog fs ++ [b] else []

/-- The blocks that `bmap` logs. -/
def bmapLog (inum bn : ℕ) (fs : Store) : List ℕ :=
  if bn < NDIRECT then mapAddrLog inum bn fs
  else
    mapAddrLog inum NDIRECT fs ++
      match mapAddr inum NDIRECT fs with
      | .ok (b, fs) => mapIndirectLog b (bn - NDIRECT) fs
      | .error _ => []

/-- The blocks that the loop of `writei` logs. -/
def writeLoopLog (inum : ℕ) : ℕ → ℕ → List ℕ → Store → List ℕ
  | 0, _, _, _ => []
  | fuel + 1, off, src, fs =>
    if src.length = 0 then []
    else
      bmapLog inum (off / BSIZE) fs ++
        match bmap inum (off / BSIZE) fs with
        | .ok (b, fs) =>
          let m := min src.length (BSIZE - off % BSIZE)
          b :: writeLoopLog inum fuel (off + m) (src.drop m)
            (fs.write b (memmove (fs.disk b) (off % BSIZE) m src))
        | .error _ => []

/-- The blocks that `writei` logs. -/
def writeiLog (inum off : ℕ) (src : List ℕ) (fs : Store) : List ℕ :=
  let n := src.length
  if (fs.ip inum).type = T_DEV then []
  else if off > (fs.ip inum).size ∨ (off + n) % 2 ^ 32 < off then []
  else if (off + n) % 2 ^ 32 > MAXFILE * BSIZE then []
  else
    writeLoopLog inum n off src fs ++
      match writeLoop inum n off src fs with
      | .ok (off, fs) =>
        if n > 0 ∧ off > (fs.ip inum).size then [IBLOCK inum fs.sb] else []
      | .error _ => []

/-! ## The loop -/

/-- `max` of `filewrite`. -/
abbrev CHUNK : ℕ := (Log.MAXOPBLOCKS - 1 - 1 - 2) / 2 * 512

/-- How `filewrite` ends. -/
structure FileWrite where
  /-- It returns `n`, and not -1. -/
  ok : Bool
  /-- `f->off`. -/
  off : ℕ
  fs : Store
  /-- What each transaction has logged. -/
  logged : List (List ℕ)

/-- The loop of `filewrite` on an inode that is not a device; each round writes a byte at least. -/
def filewriteLoop (inum : ℕ) : ℕ → ℕ → List ℕ → Store → Except String FileWrite
  | 0, off, _, fs => .ok ⟨true, off, fs, []⟩
  | fuel + 1, off, src, fs =>
    if src.length = 0 then .ok ⟨true, off, fs, []⟩
    else
      let n₁ := min src.length CHUNK
      let logged := writeiLog inum off (src.take n₁) fs
      (writei inum off (src.take n₁) fs).bind fun (r, fs) =>
        match r with
        | .written k =>
          if k ≠ n₁ then .error "short filewrite"
          else
            (filewriteLoop inum fuel (off + k) (src.drop k) fs).map fun w =>
              { w with logged := logged :: w.logged }
        | _ => .ok ⟨false, off, fs, [logged]⟩

/-- `filewrite` of the bytes `src` at the offset `off`. -/
def filewrite (inum off : ℕ) (src : List ℕ) (fs : Store) : Except String FileWrite :=
  filewriteLoop inum src.length off src fs

/-! ## How much is logged -/

variable {fs fs' : Store} {inum b i bn k off n fuel : ℕ} {src data bs cs : List ℕ} {sb : Superblock}

/-- Data blocks, the indirect block and blocks of the free map. -/
def Within (sb : Superblock) (data : List ℕ) (ind : ℕ) (bs : List ℕ) : Prop :=
  ∀ b ∈ bs, b ∈ data ∨ b = ind ∨ ∃ x < sb.size, b = BBLOCK x sb

/-- The number of blocks of the free map. -/
def nbitmap (sb : Superblock) : ℕ := (sb.size + BPB - 1) / BPB

theorem Within.append (h : Within sb data i bs) (h' : Within sb data i cs) :
    Within sb data i (bs ++ cs) := by
  intro b hb
  exact (List.mem_append.1 hb).elim (h b) (h' b)

theorem Within.mono {more : List ℕ} (h : Within sb data i bs) (hd : data ⊆ more) :
    Within sb more i bs := fun b hb => (h b hb).imp_left fun hb => hd hb

theorem Within.nil : Within sb data i [] := fun _ hb => by cases hb

theorem bblock_lt (hb : b < sb.size) :
    sb.bmapstart ≤ BBLOCK b sb ∧ BBLOCK b sb < sb.bmapstart + nbitmap sb := by
  have hB := BPB_eq
  unfold BBLOCK nbitmap
  rw [hB]
  omega

/-- **How many blocks there are**, with the block of the inode. -/
theorem Within.length (h : Within sb data i bs) (hsub : cs ⊆ bs ++ [b]) :
    cs.dedup.length ≤ data.length + nbitmap sb + 2 := by
  have hall : cs.dedup ⊆ data ++ i :: b :: List.range' sb.bmapstart (nbitmap sb) := by
    intro x hx
    rcases List.mem_append.1 (hsub (List.mem_dedup.1 hx)) with hx | hx
    · rcases h x hx with hx | rfl | ⟨y, hy, rfl⟩
      · exact List.mem_append_left _ hx
      · exact List.mem_append_right _ List.mem_cons_self
      · exact List.mem_append_right _ (List.mem_cons_of_mem _ (List.mem_cons_of_mem _
          (List.mem_range'_1.2 (bblock_lt hy))))
    · rw [List.mem_singleton] at hx
      rw [hx]
      exact List.mem_append_right _ (List.mem_cons_of_mem _ List.mem_cons_self)
  have hle := ((List.nodup_dedup cs).subperm hall).length_le
  simp only [List.length_append, List.length_cons, List.length_range'] at hle
  omega

theorem balloc_log (h : balloc fs = .ok (b, fs')) : fs'.sb = fs.sb ∧ Within fs.sb [b] i (ballocLog fs) := by
  unfold balloc at h
  unfold ballocLog
  cases hf : freeBlock fs with
  | none =>
    rw [hf] at h
    cases h
  | some x =>
    rw [hf] at h
    obtain ⟨rfl, rfl⟩ := Prod.mk.inj (Except.ok.inj h)
    refine ⟨rfl, fun y hy => ?_⟩
    rcases List.mem_cons.1 hy with rfl | hy
    · exact .inr (.inr ⟨x, (freeBlock_some hf).1, rfl⟩)
    · exact .inl hy

theorem mapAddr_log (h : mapAddr inum k fs = .ok (b, fs')) :
    fs'.sb = fs.sb ∧ Within fs.sb [b] i (mapAddrLog inum k fs) := by
  unfold mapAddr at h
  unfold mapAddrLog
  split_ifs at h ⊢ with h0
  · cases hb : balloc fs with
    | error e =>
      rw [hb] at h
      cases h
    | ok r =>
      rw [hb] at h
      obtain ⟨rfl, rfl⟩ := Prod.mk.inj (Except.ok.inj h)
      exact ⟨(balloc_log (i := i) hb).1, (balloc_log hb).2⟩
  · obtain ⟨rfl, rfl⟩ := Prod.mk.inj (Except.ok.inj h)
    exact ⟨rfl, .nil⟩

theorem mapIndirect_log {j : ℕ} (h : mapIndirect i j fs = .ok (b, fs')) :
    Within fs.sb [b] i (mapIndirectLog i j fs) := by
  unfold mapIndirect at h
  unfold mapIndirectLog
  split_ifs at h ⊢ with h0
  · cases hb : balloc fs with
    | error e =>
      rw [hb] at h
      cases h
    | ok r =>
      rw [hb] at h
      obtain ⟨rfl, rfl⟩ := Prod.mk.inj (Except.ok.inj h)
      exact (balloc_log hb).2.append fun x hx => .inr (.inl (List.mem_singleton.1 hx))
  · exact .nil

/-- What `bmap` logs, where `i` is the indirect block if there is one in the end. -/
theorem bmap_log (h : Alloc fs []) (hi : inum < fs.sb.ninodes) (hc : (fs.mem inum).isSome = true)
    (hbn : bn < MAXFILE) (hm : Mapped fs fs' inum bn) (hb : bmap inum bn fs = .ok (b, fs'))
    (hind : fs'.ref inum NDIRECT ≠ 0 → i = fs'.ref inum NDIRECT) :
    Within fs.sb [b] i (bmapLog inum bn fs) := by
  have hmax : MAXFILE = NDIRECT + NINDIRECT := rfl
  unfold bmap at hb
  unfold bmapLog
  by_cases hd : bn < NDIRECT
  · rw [if_pos hd] at hb ⊢
    exact (mapAddr_log hb).2
  rw [if_neg hd, if_pos (by omega)] at hb
  rw [if_neg hd]
  cases ha : mapAddr inum NDIRECT fs with
  | error e =>
    rw [ha] at hb
    cases hb
  | ok r =>
    obtain ⟨x, fs₁⟩ := r
    rw [ha] at hb
    have hb' : mapIndirect x (bn - NDIRECT) fs₁ = .ok (b, fs') := hb
    obtain ⟨hsb, hlog⟩ := mapAddr_log (i := x) ha
    -- the indirect block is there after the first half, and stays
    have hx : x ≠ 0 ∧ fs₁.ref inum NDIRECT = x ∧ Alloc fs₁ [] ∧ (fs₁.mem inum).isSome = true := by
      rcases mapAddr_cases h hi le_rfl with ⟨hr, he⟩ | ⟨-, ⟨he, -⟩ | ⟨y, fs₂, he, hf⟩⟩
      · rw [ha] at he
        obtain ⟨rfl, rfl⟩ := Prod.mk.inj (Except.ok.inj he)
        exact ⟨hr, rfl, h, hc⟩
      · rw [ha] at he
        cases he
      · rw [ha] at he
        obtain ⟨rfl, rfl⟩ := Prod.mk.inj (Except.ok.inj he)
        exact ⟨hf.pos h, by rw [hf.ref inum hi _ ndirect_lt, if_pos ⟨rfl, rfl⟩], hf.alloc, hf.cached⟩
    obtain ⟨hne, href, h₁, hc₁⟩ := hx
    have hi₁ : inum < fs₁.sb.ninodes := by rwa [hsb]
    have hkeep : fs'.ref inum NDIRECT = x := by
      rw [← href] at hb' hne
      rcases mapIndirect_cases (j := bn - NDIRECT) h₁ hi₁ hc₁ (by omega) hne with
        ⟨-, he⟩ | ⟨-, ⟨he, -⟩ | ⟨y, fs₂, he, hf⟩⟩
      · rw [hb'] at he
        rw [(Prod.mk.inj (Except.ok.inj he)).2, href]
      · rw [hb'] at he
        cases he
      · rw [hb'] at he
        rw [(Prod.mk.inj (Except.ok.inj he)).2, hf.ref inum hi₁ _ ndirect_lt, if_neg (by omega), href]
    obtain rfl : i = x := (hind (by rw [hkeep]; exact hne)).trans hkeep
    refine Within.append (fun y hy => ?_) ?_
    · exact .inr ((hlog y hy).elim (fun hy => .inl (List.mem_singleton.1 hy)) id)
    · rw [← hsb]
      exact mapIndirect_log hb'

/-- The number of blocks of a file that `n` bytes from `off` on are in. -/
def touched (off n : ℕ) : ℕ := if n = 0 then 0 else (off + n - 1) / BSIZE - off / BSIZE + 1

theorem writeLoop_log (fuel : ℕ) : ∀ {fs fs' : Store} {off off' : ℕ} {src : List ℕ}, Alloc fs [] →
    inum < fs.sb.ninodes → (fs.mem inum).isSome = true → off + src.length ≤ MAXFILE * BSIZE →
    src.length ≤ fuel → writeLoop inum fuel off src fs = .ok (off', fs') →
    ∃ data i, data.length ≤ touched off src.length ∧
      (fs.ref inum NDIRECT ≠ 0 → i = fs.ref inum NDIRECT) ∧
      Within fs.sb data i (writeLoopLog inum fuel off src fs) := by
  induction fuel with
  | zero => exact fun _ _ _ _ _ _ => ⟨[], _, Nat.zero_le _, fun _ => rfl, .nil⟩
  | succ fuel ih =>
    intro fs fs' off off' src h hi hc hend hfuel hok
    unfold writeLoop at hok
    unfold writeLoopLog
    by_cases hz : src.length = 0
    · rw [if_pos hz]
      exact ⟨[], _, Nat.zero_le _, fun _ => rfl, .nil⟩
    rw [if_neg hz] at hok ⊢
    have hoff : off < MAXFILE * BSIZE := by omega
    rcases bmap_spec h hi hc (bn_lt hoff) with ⟨he, -⟩ | ⟨fs₁, he, hm⟩
    · rw [he] at hok
      cases hok
    rw [he] at hok ⊢
    change writeLoop inum fuel (off + min src.length (BSIZE - off % BSIZE))
        (src.drop (min src.length (BSIZE - off % BSIZE))) _ = _ at hok
    dsimp only
    generalize hmin : min src.length (BSIZE - off % BSIZE) = m at hok ⊢
    generalize ht : fs₁.write (fs₁.ref inum (slotOf (off / BSIZE)))
      (memmove (fs₁.disk (fs₁.ref inum (slotOf (off / BSIZE)))) (off % BSIZE) m src) = t at hok ⊢
    have hsb := hm.grown.sb
    have hi₁ : inum < fs₁.sb.ninodes := hsb ▸ hi
    obtain ⟨hat, hgt, -, href, -⟩ := hm.alloc.write_data hi₁ (bn_lt hoff) hm.grown.cached hm.ref ht
    have hit : inum < t.sb.ninodes := by rwa [hgt.sb, hsb]
    have hmod : off % BSIZE < BSIZE := Nat.mod_lt _ (by decide)
    have hlen : (src.drop m).length = src.length - m := List.length_drop
    obtain ⟨data, i, hdata, hind, hlog⟩ := ih hat hit hgt.cached (by omega) (by omega) hok
    rw [href inum hi₁ _ ndirect_lt] at hind
    rw [hgt.sb, hsb] at hlog
    refine ⟨fs₁.ref inum (slotOf (off / BSIZE)) :: data, i, ?_, fun hr => ?_, ?_⟩
    · rw [hlen] at hdata
      have hB := BSIZE_eq
      unfold touched at hdata ⊢
      rw [hB] at hdata hmin ⊢
      rw [List.length_cons, if_neg hz]
      split_ifs at hdata
      · omega
      · omega
    · have hr' := hm.grown.ref inum hi _ ndirect_lt hr
      rw [hind (by rwa [hr']), hr']
    · refine Within.append ?_ fun y hy => ?_
      · exact (bmap_log h hi hc (bn_lt hoff) hm he hind).mono fun y hy => by
          rw [List.mem_singleton.1 hy]
          exact List.mem_cons_self
      · rcases List.mem_cons.1 hy with rfl | hy
        · exact .inl List.mem_cons_self
        · exact (hlog y hy).imp_left (List.mem_cons_of_mem _)

/-- **What a chunk logs**: four data blocks, the indirect block, the inode and the free map. -/
theorem writei_logged (h : Sound fs) (hi : inum < fs.sb.ninodes) (hc : (fs.mem inum).isSome = true)
    (hn : src.length ≤ CHUNK) {r : Reply} (hok : writei inum off src fs = .ok (r, fs')) :
    (writeiLog inum off src fs).dedup.length ≤ 4 + nbitmap fs.sb + 2 := by
  have hchunk : CHUNK = 1536 := rfl
  have hmax : MAXFILE * BSIZE < 2 ^ 32 := by decide
  unfold writei at hok
  unfold writeiLog
  dsimp only at hok ⊢
  split_ifs at hok ⊢ with hdev hrange hbig
  · exact Nat.zero_le _
  · exact Nat.zero_le _
  · exact Nat.zero_le _
  cases hl : writeLoop inum src.length off src fs with
  | error e =>
    rw [hl] at hok
    cases hok
  | ok x =>
    obtain ⟨off', fs₁⟩ := x
    have hend : off + src.length ≤ MAXFILE * BSIZE := by
      have := (h.proper inum hi).size
      omega
    obtain ⟨data, i, hdata, -, hlog⟩ := writeLoop_log _ h.alloc hi hc hend le_rfl hl
    have hsb : fs₁.sb = fs.sb := by
      rcases writeLoop_spec _ h.alloc hi hc hend le_rfl with ⟨he, -⟩ | ⟨fs₂, he, hw⟩
      · rw [hl] at he
        cases he
      · rw [hl] at he
        rw [(Prod.mk.inj (Except.ok.inj he)).2]
        exact hw.grown.sb
    have htouched : touched off src.length ≤ 4 := by
      unfold touched
      rw [BSIZE_eq]
      split_ifs
      · omega
      · omega
    refine (hlog.length (b := IBLOCK inum fs.sb) fun x hx => ?_).trans (by omega)
    rcases List.mem_append.1 hx with hx | hx
    · exact List.mem_append_left _ hx
    · dsimp only at hx
      split_ifs at hx
      · rw [hsb] at hx
        exact List.mem_append_right _ hx
      · cases hx

/-! ## The chunks together -/

theorem Stored.refl (h : Sound fs) (hin : off ≤ (fs.ip inum).size) : Stored fs fs inum off [] := by
  refine ⟨h, rfl, rfl, fun _ _ => rfl, rfl, ?_, fun o _ => (if_neg ?_).symm,
    fun _ _ _ => ⟨rfl, fun _ _ => rfl⟩, fun _ _ _ => rfl, rfl⟩
  · rw [List.length_nil]
    omega
  · rw [List.length_nil]
    omega

/-- Two writes in a row are one. -/
theorem Stored.trans {fs₁ : Store} {a b : List ℕ} (h : Stored fs fs₁ inum off a)
    (h' : Stored fs₁ fs' inum (off + a.length) b) : Stored fs fs' inum off (a ++ b) := by
  have hlen : (a ++ b).length = a.length + b.length := List.length_append
  have hsb := h.sb
  refine ⟨h'.sound, h'.sb.trans hsb, h'.freed.trans h.freed,
    fun i hi => (h'.mem i hi).trans (h.mem i hi), h'.type.trans h.type, ?_, fun o ho => ?_,
    fun i hi hne => ?_, fun bn hbn hge => ?_, ?_⟩
  · rw [h'.size, h.size, hlen]
    omega
  · rw [h'.byte o ho, h.byte o ho, hlen, List.getD_eq_getElem?_getD, List.getD_eq_getElem?_getD,
      List.getD_eq_getElem?_getD, List.getElem?_append]
    by_cases h₁ : o - off < a.length
    · rw [if_neg (show ¬ (off + a.length ≤ o ∧ o < off + a.length + b.length) by omega), if_pos h₁]
      exact if_congr (by omega) rfl rfl
    · have hsub : o - (off + a.length) = o - off - a.length := by omega
      rw [if_neg h₁, hsub]
      by_cases h₂ : off + a.length ≤ o ∧ o < off + a.length + b.length
      · rw [if_pos h₂, if_pos (by omega)]
      · rw [if_neg h₂]
        by_cases h₃ : off ≤ o ∧ o < off + a.length
        · omega
        · rw [if_neg h₃, if_neg (by omega)]
  · obtain ⟨hip, hblock⟩ := h.other i hi hne
    obtain ⟨hip', hblock'⟩ := h'.other i (hsb ▸ hi) hne
    exact ⟨hip'.trans hip, fun bn hbn => (hblock' bn hbn).trans (hblock bn hbn)⟩
  · rw [hlen] at hge
    rw [h'.only bn hbn (by omega), h.only bn hbn (by omega)]
  · have h₁ := h.spend
    have h₂ := h'.spend
    omega

/-- How many of `n` bytes fit in whole chunks if they do not all fit. -/
def fitting (off n : ℕ) : ℕ :=
  if off + n ≤ MAXFILE * BSIZE then n else (MAXFILE * BSIZE - off) / CHUNK * CHUNK

theorem fitting_chunk {m : ℕ} (hm : m = min n CHUNK) (hend : off + m ≤ MAXFILE * BSIZE) :
    fitting off n = m + fitting (off + m) (n - m) := by
  have hchunk : CHUNK = 1536 := rfl
  have hmax : MAXFILE * BSIZE = 71680 := rfl
  rw [hchunk] at hm
  rw [hmax] at hend
  unfold fitting
  rw [hchunk, hmax]
  clear hchunk hmax
  split_ifs <;> omega

theorem fitting_none {m : ℕ} (hm : m = min n CHUNK) (hend : MAXFILE * BSIZE < off + m) :
    fitting off n = 0 := by
  have hchunk : CHUNK = 1536 := rfl
  have hmax : MAXFILE * BSIZE = 71680 := rfl
  rw [hchunk] at hm
  rw [hmax] at hend
  unfold fitting
  rw [hchunk, hmax, if_neg (by omega)]
  clear hchunk hmax
  omega

theorem filewriteLoop_spec (fuel : ℕ) : ∀ {fs : Store} {off : ℕ} {src : List ℕ}, Sound fs →
    inum < fs.sb.ninodes → (fs.mem inum).isSome = true → (fs.ip inum).type ≠ T_DEV →
    off ≤ (fs.ip inum).size → src.length ≤ fuel →
    filewriteLoop inum fuel off src fs = .error "balloc: out of blocks" ∧ fs.free < fs.absent inum ∨
      ∃ w, filewriteLoop inum fuel off src fs = .ok w ∧
        (w.ok = true ↔ off + src.length ≤ MAXFILE * BSIZE) ∧
        w.off = off + fitting off src.length ∧
        Stored fs w.fs inum off (src.take (fitting off src.length)) ∧
        ∀ bs ∈ w.logged, bs.dedup.length ≤ 4 + nbitmap fs.sb + 2 := by
  -- nothing is left to write
  have hdone : ∀ {fs : Store} {off : ℕ} {src : List ℕ}, Sound fs → inum < fs.sb.ninodes →
      off ≤ (fs.ip inum).size → src.length = 0 → ∃ w, (.ok ⟨true, off, fs, []⟩ : Except String FileWrite) = .ok w ∧
        (w.ok = true ↔ off + src.length ≤ MAXFILE * BSIZE) ∧
        w.off = off + fitting off src.length ∧
        Stored fs w.fs inum off (src.take (fitting off src.length)) ∧
        ∀ bs ∈ w.logged, bs.dedup.length ≤ 4 + nbitmap fs.sb + 2 := by
    intro fs off src h hi hin hz
    obtain rfl : src = [] := List.eq_nil_of_length_eq_zero hz
    have hle : off + ([] : List ℕ).length ≤ MAXFILE * BSIZE := hin.trans (h.proper inum hi).size
    have hfit : fitting off ([] : List ℕ).length = 0 := if_pos hle
    refine ⟨_, rfl, iff_of_true rfl hle, ?_, ?_, fun bs hbs => by cases hbs⟩
    · rw [hfit]
      rfl
    · rw [List.take_nil]
      exact .refl h hin
  induction fuel with
  | zero => exact fun h hi _ _ hin hfuel => .inr (hdone h hi hin (by omega))
  | succ fuel ih =>
    intro fs off src h hi hc hdev hin hfuel
    unfold filewriteLoop
    by_cases hz : src.length = 0
    · rw [if_pos hz]
      exact .inr (hdone h hi hin hz)
    rw [if_neg hz]
    dsimp only
    have hchunk : CHUNK = 1536 := rfl
    have hmax : MAXFILE * BSIZE = 71680 := rfl
    have hsize := (h.proper inum hi).size
    generalize hm : min src.length CHUNK = m
    have htake : (src.take m).length = m := by
      rw [List.length_take]
      omega
    have hdrop : (src.drop m).length = src.length - m := List.length_drop
    have hoff : off < 2 ^ 32 := by omega
    have hn : (src.take m).length < 2 ^ 32 := by omega
    rcases writei_cases h hi hc hdev hoff hn with
      ⟨hfail, he⟩ | ⟨⟨-, -, hend⟩, ⟨he, hlt⟩ | ⟨fs₁, he, hst, hc₁⟩⟩
    · have hover : MAXFILE * BSIZE < off + m := by omega
      have hlog := writei_logged h hi hc (by omega) he
      rw [he]
      refine .inr ⟨_, rfl, iff_of_false Bool.false_ne_true (by omega), ?_, ?_, fun bs hbs => ?_⟩
      · rw [fitting_none hm.symm hover]
        rfl
      · rw [fitting_none hm.symm hover, List.take_zero]
        exact .refl h hin
      · rw [List.mem_singleton.1 hbs]
        exact hlog
    · rw [he]
      exact .inl ⟨rfl, hlt⟩
    · have hlog := writei_logged h hi hc (by omega) he
      rw [htake] at hend he
      have hsize₁ := hst.size
      rw [htake] at hsize₁
      rw [he]
      change (if m ≠ m then _ else _) = _ ∧ _ ∨ ∃ w, (if m ≠ m then _ else _) = _ ∧ _
      rw [if_neg (not_not.2 rfl)]
      have hin₁ : off + m ≤ (fs₁.ip inum).size := by omega
      have hfuel₁ : (src.drop m).length ≤ fuel := by omega
      rcases ih hst.sound (by rwa [hst.sb]) hc₁ (by rwa [hst.type]) hin₁ hfuel₁ with
        ⟨he', hlt⟩ | ⟨w, he', hok, hoff, hst', hlogs⟩
      · have hspend := hst.spend
        rw [he']
        exact .inl ⟨rfl, by omega⟩
      · rw [hdrop] at hok hoff hst'
        rw [hst.sb] at hlogs
        have hfit := fitting_chunk hm.symm hend
        rw [he']
        refine .inr ⟨_, rfl, hok.trans (by omega), ?_, ?_, fun bs hbs => ?_⟩
        · rw [hfit]
          exact hoff.trans (by omega)
        · rw [hfit, List.take_add]
          exact hst.trans (by rwa [htake])
        · rcases List.mem_cons.1 hbs with rfl | hbs
          · exact hlog
          · exact hlogs bs hbs

/-- **`filewrite`.** Its chunks together do what one `writei` of all the bytes does, or of those in
whole chunks that fit in the largest file, and it panics only when the free blocks do not suffice
for the empty slots of the inode. With four blocks of the free map at most, no transaction logs
more than `MAXOPBLOCKS` blocks. -/
theorem filewrite_spec (h : Sound fs) (hi : inum < fs.sb.ninodes) (hc : (fs.mem inum).isSome = true)
    (hdev : (fs.ip inum).type ≠ T_DEV) (hin : off ≤ (fs.ip inum).size) :
    filewrite inum off src fs = .error "balloc: out of blocks" ∧ fs.free < fs.absent inum ∨
      ∃ w, filewrite inum off src fs = .ok w ∧
        (w.ok = true ↔ off + src.length ≤ MAXFILE * BSIZE) ∧
        w.off = off + fitting off src.length ∧
        Stored fs w.fs inum off (src.take (fitting off src.length)) ∧
        ∀ bs ∈ w.logged, bs.dedup.length ≤ 4 + nbitmap fs.sb + 2 :=
  filewriteLoop_spec _ h hi hc hdev hin le_rfl

/-- Two chunks on the small disk. -/
theorem filewrite_spec_image :
    filewrite 1 0 (List.replicate 2000 7) image = .error "balloc: out of blocks" ∧
        image.free < image.absent 1 ∨
      ∃ w, filewrite 1 0 (List.replicate 2000 7) image = .ok w ∧
        (w.ok = true ↔ 0 + (List.replicate 2000 7).length ≤ MAXFILE * BSIZE) ∧
        w.off = 0 + fitting 0 (List.replicate 2000 7).length ∧
        Stored image w.fs 1 0 ((List.replicate 2000 7).take (fitting 0 (List.replicate 2000 7).length)) ∧
        ∀ bs ∈ w.logged, bs.dedup.length ≤ 4 + nbitmap image.sb + 2 :=
  filewrite_spec image_sound (by decide) rfl (by rw [image_ip (by decide)]; decide) (Nat.zero_le _)

end Fs

end OsPlayground
