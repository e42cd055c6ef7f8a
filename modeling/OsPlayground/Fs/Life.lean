import OsPlayground.Fs.Trunc
import OsPlayground.Lib.Run

/-!
# The life of the blocks

Runs of the functions of the inode layer: inodes are allocated, written, read, given links and
dropped, in any order.

* `FsOp`, `opStep`: the operations; a panic stops the run.
* `ilock_cases`, `ialloc_cases`, `update_sound`: what the remaining functions keep.
* `opStep_sound`: what one operation does.
* **`blocks_consistent`**: throughout every run the free map marks the metadata and the blocks that
  are in exactly one slot of one inode; reading changes nothing, and each block is freed once.
-/

namespace OsPlayground

namespace Fs

open Lib

/-- The operations. Those on the fields or the contents of an inode lock it first. -/
inductive FsOp
  | ialloc (type : ℕ)
  | update (inum major minor nlink : ℕ)
  | readi (inum off n : ℕ)
  | writei (inum off : ℕ) (src : List ℕ)
  | iput (inum ref : ℕ)
  | evict (inum : ℕ)

/-- The file system between two operations. -/
structure FsState where
  fs : Store
  panicked : Option String := none

namespace FsOp

/-- Types are those of `stat.h`, inode numbers are those of the disk, and arguments have their
widths. -/
def Ok (sb : Superblock) : FsOp → Prop
  | ialloc type => type = T_DIR ∨ type = T_FILE ∨ type = T_DEV
  | update inum major minor nlink =>
    inum < sb.ninodes ∧ major < 2 ^ 16 ∧ minor < 2 ^ 16 ∧ nlink < 2 ^ 16
  | readi inum off n => inum < sb.ninodes ∧ off < 2 ^ 32 ∧ n < 2 ^ 32
  | writei inum off src => inum < sb.ninodes ∧ off < 2 ^ 32 ∧ src.length < 2 ^ 32
  | iput inum _ => inum < sb.ninodes
  | evict inum => inum < sb.ninodes

instance (sb : Superblock) (op : FsOp) : Decidable (op.Ok sb) := by
  cases op <;> unfold Ok <;> infer_instance

/-- One operation; what it returns is dropped. -/
def exec : FsOp → Store → Except String Store
  | ialloc type, fs => (Fs.ialloc type fs).map fun (_, fs) => fs
  | update inum major minor nlink, fs => (ilock inum fs).map fun fs =>
    iupdate inum (fs.setIp inum fun r => { r with major := major, minor := minor, nlink := nlink })
  | readi inum off n, fs =>
    (ilock inum fs).bind fun fs => (Fs.readi inum off n fs).map fun (_, fs) => fs
  | writei inum off src, fs =>
    (ilock inum fs).bind fun fs => (Fs.writei inum off src fs).map fun (_, fs) => fs
  | iput inum ref, fs => Fs.iput inum ref fs
  | evict inum, fs => .ok (fs.evict inum)

end FsOp

/-- One operation. -/
def opStep (op : FsOp) (s : FsState) : Option FsState :=
  if s.panicked = none ∧ op.Ok s.fs.sb then
    some (match op.exec s.fs with
      | .ok fs => { s with fs := fs }
      | .error msg => { s with panicked := some msg })
  else none

/-- **The free map is right.** -/
structure Consistent (fs : Store) : Prop where
  /-- The bits of the metadata and of the blocks in exactly one slot of one inode are set. -/
  bitmap : ∀ b < fs.sb.size, fs.bit b = true ↔ b < nmeta fs.sb ∨
    ∃! x : ℕ × ℕ, x.1 < fs.sb.ninodes ∧ x.2 < NSLOT ∧ fs.ref x.1 x.2 = b
  /-- No other block is in a slot. -/
  data : ∀ i < fs.sb.ninodes, ∀ k < NSLOT, fs.ref i k ≠ 0 →
    nmeta fs.sb ≤ fs.ref i k ∧ fs.ref i k < fs.sb.size
  once : ∀ i < fs.sb.ninodes, ∀ k < NSLOT, ∀ i' < fs.sb.ninodes, ∀ k' < NSLOT,
    fs.ref i k = fs.ref i' k' → fs.ref i k ≠ 0 → i = i' ∧ k = k'
  /-- Every block below the size of an inode is there. -/
  mapped : ∀ i < fs.sb.ninodes, ∀ o < (fs.ip i).size, fs.ref i (slotOf (o / BSIZE)) ≠ 0

/-- The panics that can happen: for want of blocks or inodes, and for an inode number that is not
in use. -/
def Scarce (panicked : Option String) : Prop :=
  panicked = none ∨ panicked = some "balloc: out of blocks" ∨ panicked = some "ialloc: no inodes" ∨
    panicked = some "ilock: no type"

/-- What the operations do to the blocks. -/
def Tidy (s : FsState) : FsOp → FsState → Prop
  | .readi _ _ _, s' => s'.fs.disk = s.fs.disk ∧ s'.fs.freed = s.fs.freed ∧
    (s'.panicked = none ∨ s'.panicked = some "ilock: no type")
  | .iput inum ref, s' => s'.panicked = none ∧ (¬ Last s.fs inum ref → s'.fs = s.fs) ∧
    (Last s.fs inum ref → ∃ l, s'.fs.freed = s.fs.freed ++ l ∧ l.Nodup ∧
      ∀ b, b ∈ l ↔ b ≠ 0 ∧ ∃ k < NSLOT, s.fs.ref inum k = b)
  | _, s' => s'.fs.freed = s.fs.freed

variable {fs fs' : Store} {inum i : ℕ}

theorem Sound.consistent (h : Sound fs) : Consistent fs := by
  refine ⟨fun b hb => ?_, h.alloc.range, h.alloc.inj, fun i hi => (h.proper i hi).mapped⟩
  rw [h.alloc.bits b hb]
  constructor
  · rintro (hm | hl | ⟨i, hi, k, hk, hr⟩)
    · exact .inl hm
    · exact absurd hl List.not_mem_nil
    by_cases hm : b < nmeta fs.sb
    · exact .inl hm
    have hpos := h.alloc.layout.nmeta_pos
    refine .inr ⟨(i, k), ⟨hi, hk, hr⟩, ?_⟩
    rintro ⟨i', k'⟩ ⟨hi', hk', hr'⟩
    obtain ⟨rfl, rfl⟩ := h.alloc.inj i' hi' k' hk' i hi k hk (hr'.trans hr.symm) (by
      rw [hr']
      omega)
    rfl
  · rintro (hm | ⟨⟨i, k⟩, ⟨hi, hk, hr⟩, -⟩)
    · exact .inl hm
    · exact .inr (.inr ⟨i, hi, k, hk, hr⟩)

/-! ## The other functions -/

theorem ilock_cases (fs : Store) (inum : ℕ) : ilock inum fs = .error "ilock: no type" ∨
    ∃ fs', ilock inum fs = .ok fs' ∧ Cached fs fs' ∧ (fs'.mem inum).isSome = true := by
  unfold ilock
  cases hm : fs.mem inum with
  | some r =>
    refine .inr ⟨fs, rfl, ⟨rfl, rfl, rfl, fun _ _ => rfl, fun _ _ _ h => h⟩, ?_⟩
    rw [hm]
    rfl
  | none =>
    simp only [Store.setIp_ip, id]
    split_ifs with hz
    · exact .inl rfl
    refine .inr ⟨_, rfl, ⟨rfl, rfl, rfl, fun i _ => ?_, fun i _ ht hn => ?_⟩, ?_⟩
    · by_cases hne : i = inum
      · rw [hne, Store.setIp_ip]
        rfl
      · exact Store.setIp_ip_of_ne _ hne
    · have hne : i ≠ inum := by
        rintro rfl
        exact hz ht
      rw [Store.setIp_mem_of_ne _ hne, hn]
    · rw [Store.setIp_mem]
      rfl

theorem evict_cached (h : Sound fs) (inum : ℕ) : Cached fs (fs.evict inum) := by
  refine ⟨rfl, rfl, rfl, fun i hi => ?_, fun i _ _ hn => ?_⟩
  · by_cases hne : i = inum
    · rw [← (h.proper i hi).synced, hne]
      simp [Store.ip, Store.evict]
      rfl
    · have hmem : (fs.evict inum).mem i = fs.mem i := Function.update_of_ne hne _ _
      rw [Store.ip, Store.ip, hmem]
      rfl
  · by_cases hne : i = inum
    · rw [hne]
      exact Function.update_self _ _ _
    · rw [← hn]
      exact Function.update_of_ne hne _ _

theorem ialloc_cases {type : ℕ} (h : Sound fs) (ht : 0 < type ∧ type < 2 ^ 16) :
    ialloc type fs = .error "ialloc: no inodes" ∨
      ∃ i fs', ialloc type fs = .ok (i, fs') ∧ Sound fs' ∧ fs'.freed = fs.freed := by
  unfold ialloc
  cases hf : (List.range' 1 (fs.sb.ninodes - 1)).find? fun i => (fs.dinode i).type = 0 with
  | none => exact .inl rfl
  | some i =>
    obtain ⟨h₁, h₂⟩ := List.mem_range'_1.mp (List.mem_of_find?_eq_some hf)
    have hi : i < fs.sb.ninodes := by omega
    have hp := h.proper i hi
    have hz : (fs.ip i).type = 0 := by
      have hdec := List.find?_some hf
      rw [← hp.synced]
      exact of_decide_eq_true hdec
    obtain ⟨hnone, hzero⟩ := hp.idle hz
    have h16 : 0 < 2 ^ 16 := by decide
    have h32 : 0 < 2 ^ 32 := by decide
    have hfit : Fits { type := type } :=
      ⟨ht.2, h16, h16, h16, h32, fun _ => h32, fun _ _ => rfl⟩
    have hput := put_of_write hfit (.inl hnone) rfl
    refine .inr ⟨i, _, rfl, hput.sound h.alloc hi (funext fun k => (hzero k).symm) hfit
      (Nat.zero_le _) (fun o ho => absurd ho (Nat.not_lt_zero o)) (fun h0 => ?_)
      fun i hi' _ => h.proper i hi', hput.freed⟩
    have : type = 0 := h0
    omega

theorem update_sound {major minor nlink : ℕ} (h : Sound fs) (hi : inum < fs.sb.ninodes)
    (hc : (fs.mem inum).isSome = true)
    (hw : major < 2 ^ 16 ∧ minor < 2 ^ 16 ∧ nlink < 2 ^ 16) :
    Sound (iupdate inum (fs.setIp inum fun r =>
      { r with major := major, minor := minor, nlink := nlink })) ∧
    (iupdate inum (fs.setIp inum fun r =>
      { r with major := major, minor := minor, nlink := nlink })).freed = fs.freed := by
  have hp := h.proper inum hi
  have hfit := hp.fits
  have hfit' : Fits { fs.ip inum with major := major, minor := minor, nlink := nlink } :=
    ⟨hfit.type, hw.1, hw.2.1, hw.2.2, hfit.size, hfit.addrs, hfit.last⟩
  obtain ⟨hput, -⟩ := update_put
    (fun r => { r with major := major, minor := minor, nlink := nlink }) hfit'
  exact ⟨hput.sound h.alloc hi rfl hfit' hp.size hp.mapped
    (fun hz => absurd hz (h.type_ne hi hc)) fun i hi' _ => h.proper i hi', hput.freed⟩

/-! ## Runs -/

theorem readi_ok {off n : ℕ} (h : Sound fs) (hi : inum < fs.sb.ninodes) (hoff : off < 2 ^ 32)
    (hn : n < 2 ^ 32) :
    ∃ r, readi inum off n fs = .ok (r, fs) := by
  by_cases hdev : (fs.ip inum).type = T_DEV
  · unfold readi
    rw [if_pos hdev]
    exact ⟨_, rfl⟩
  · exact ⟨_, readi_eq (h.proper inum hi).size (h.proper inum hi).mapped hdev hoff hn⟩

theorem writei_ok {off : ℕ} {src : List ℕ} (h : Sound fs) (hi : inum < fs.sb.ninodes)
    (hc : (fs.mem inum).isSome = true) (hoff : off < 2 ^ 32) (hn : src.length < 2 ^ 32) :
    writei inum off src fs = .error "balloc: out of blocks" ∨
      ∃ r fs', writei inum off src fs = .ok (r, fs') ∧ Sound fs' ∧ fs'.freed = fs.freed := by
  by_cases hdev : (fs.ip inum).type = T_DEV
  · unfold writei
    simp only [if_pos hdev]
    exact .inr ⟨_, fs, rfl, h, rfl⟩
  rcases writei_cases h hi hc hdev hoff hn with ⟨-, he⟩ | ⟨-, ⟨he, -⟩ | ⟨fs', he, hs, -⟩⟩
  · exact .inr ⟨_, fs, he, h, rfl⟩
  · exact .inl he
  · exact .inr ⟨_, fs', he, hs.sound, hs.freed⟩

/-- The invariant of a run. -/
def OpInv (s : FsState) : Prop := Sound s.fs ∧ Scarce s.panicked

/-- **One operation.** -/
theorem opStep_sound {s s' : FsState} {op : FsOp} (h : OpInv s) (hs : opStep op s = some s') :
    OpInv s' ∧ Tidy s op s' := by
  unfold opStep at hs
  split_ifs at hs with hok
  obtain ⟨hnone, hok⟩ := hok
  obtain ⟨hsound, -⟩ := h
  obtain rfl := Option.some.inj hs
  cases op with
  | ialloc type =>
    have htype : 0 < type ∧ type < 2 ^ 16 := by
      rcases hok with rfl | rfl | rfl <;> decide
    simp only [FsOp.exec]
    rcases ialloc_cases hsound htype with he | ⟨i, fs', he, hs', hfreed⟩
    · rw [he]
      exact ⟨⟨hsound, .inr (.inr (.inl rfl))⟩, rfl⟩
    · rw [he]
      exact ⟨⟨hs', .inl hnone⟩, hfreed⟩
  | update inum major minor nlink =>
    simp only [FsOp.exec]
    rcases ilock_cases s.fs inum with he | ⟨fs', he, hcached, hc⟩
    · rw [he]
      exact ⟨⟨hsound, .inr (.inr (.inr rfl))⟩, rfl⟩
    · rw [he]
      obtain ⟨hs', hfreed⟩ :=
        update_sound (hcached.sound hsound) (hcached.sb ▸ hok.1) hc hok.2
      exact ⟨⟨hs', .inl hnone⟩, hfreed.trans hcached.freed⟩
  | readi inum off n =>
    simp only [FsOp.exec]
    rcases ilock_cases s.fs inum with he | ⟨fs', he, hcached, hc⟩
    · rw [he]
      exact ⟨⟨hsound, .inr (.inr (.inr rfl))⟩, rfl, rfl, .inr rfl⟩
    · obtain ⟨r, he'⟩ := readi_ok (hcached.sound hsound) (hcached.sb ▸ hok.1) hok.2.1 hok.2.2
      have hbind : ((ilock inum s.fs).bind fun fs =>
          (readi inum off n fs).map fun (_, fs) => fs) = .ok fs' := by
        rw [he]
        show (readi inum off n fs').map _ = _
        rw [he']
        rfl
      rw [hbind]
      exact ⟨⟨hcached.sound hsound, .inl hnone⟩, hcached.disk, hcached.freed, .inl hnone⟩
  | writei inum off src =>
    simp only [FsOp.exec]
    rcases ilock_cases s.fs inum with he | ⟨fs', he, hcached, hc⟩
    · rw [he]
      exact ⟨⟨hsound, .inr (.inr (.inr rfl))⟩, rfl⟩
    · have hbind : ((ilock inum s.fs).bind fun fs =>
          (writei inum off src fs).map fun (_, fs) => fs) =
          (writei inum off src fs').map fun (_, fs) => fs := by
        rw [he]
        rfl
      rw [hbind]
      rcases writei_ok (hcached.sound hsound) (hcached.sb ▸ hok.1) hc hok.2.1 hok.2.2 with
        he' | ⟨r, fs'', he', hs', hfreed⟩
      · rw [he']
        exact ⟨⟨hsound, .inr (.inl rfl)⟩, rfl⟩
      · rw [he']
        exact ⟨⟨hs', .inl hnone⟩, hfreed.trans hcached.freed⟩
  | iput inum ref =>
    simp only [FsOp.exec]
    rcases iput_spec hsound hok ref with ⟨hl, he⟩ | ⟨hl, fs', he, hd⟩
    · rw [he]
      exact ⟨⟨hsound, .inl hnone⟩, hnone, fun _ => rfl, fun hl' => absurd hl' hl⟩
    · rw [he]
      refine ⟨⟨hd.sound, .inl hnone⟩, hnone, fun hl' => absurd hl hl', fun _ =>
        ⟨_, hd.freed, ?_, fun b => ?_⟩⟩
      · exact nodup_taken hsound.alloc hok (fun k hk => mem_slots.mp hk) slots_nodup
      · rw [mem_taken]
        simp only [mem_slots]
  | evict inum =>
    exact ⟨⟨(evict_cached hsound inum).sound hsound, .inl hnone⟩, rfl⟩

/-- **The blocks of a file system.** From a sound file system, in every run of the operations: the
free map is right, no panic but those of `Scarce` happens (so `bfree` never finds a free block), reading
leaves the disk alone, and a last `iput` frees each block of the inode exactly once. -/
theorem blocks_consistent (fs : Store) (ops : List FsOp) (h : Sound fs) :
    Throughout opStep (fun s => Consistent s.fs ∧ Scarce s.panicked) ops { fs := fs } ∧
      Along opStep Tidy ops { fs := fs } := by
  have hstart : OpInv { fs := fs } := ⟨h, .inl rfl⟩
  refine ⟨?_, ?_⟩
  · have hinv : Throughout opStep OpInv ops { fs := fs } :=
      throughout_of_inv (fun _ _ _ h hs => (opStep_sound h hs).1) hstart
    exact hinv.mono fun _ h => ⟨h.1.consistent, h.2⟩
  · exact along_of_inv (I := OpInv) (fun _ _ _ h hs => (opStep_sound h hs).1)
      (fun _ _ _ h hs => (opStep_sound h hs).2) hstart

theorem blocks_consistent_image :
    Throughout opStep (fun s => Consistent s.fs ∧ Scarce s.panicked)
        [.writei 1 0 [104, 105], .iput 1 1, .ialloc T_DIR] { fs := image } ∧
      Along opStep Tidy [.writei 1 0 [104, 105], .iput 1 1, .ialloc T_DIR] { fs := image } :=
  blocks_consistent image _ image_sound

end Fs

end OsPlayground
