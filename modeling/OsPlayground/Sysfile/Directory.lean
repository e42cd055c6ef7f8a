import Mathlib.Data.List.TakeWhile
import OsPlayground.Fs.Life
import OsPlayground.Memo.Capture
import OsPlayground.Scsh.Parse
import OsPlayground.Sysfile.Model

/-!
# Directories are finite maps

* `strncmp`: as the code does it; `strncmp_eq_zero_iff`, `dirent_name`: names count up to a NUL, and up to
  `DIRSIZ` characters.
* `DirOp`: `dirlookup`, `dirlink` and what `sys_unlink` does to the entry, on the bytes of a directory.
* `IsMap`: the used entries of a directory are a map from names to inode numbers.
* `dirOp_spec`: what one operation does; **`directory_map`**: any operations.
-/

namespace OsPlayground

namespace Sysfile

open Lib
open Fs (Store T_DIR T_DEV MAXFILE BSIZE Sound)

/-! ## Names -/

/-- `strncmp` from the offset `i` on. -/
def strncmp (p q : ℕ → ℕ) : ℕ → ℕ → ℤ
  | _, 0 => 0
  | i, n + 1 => if p i ≠ 0 ∧ p i = q i then strncmp p q (i + 1) n else (p i : ℤ) - q i

/-- The characters of an array from `i` on, before the NUL and at most `n`. -/
def upto (p : ℕ → ℕ) (i n : ℕ) : List ℕ := ((List.range' i n).map p).takeWhile (· ≠ 0)

theorem upto_succ (p : ℕ → ℕ) (i n : ℕ) :
    upto p i (n + 1) = if p i ≠ 0 then p i :: upto p (i + 1) n else [] := by
  rw [upto, List.range'_succ, List.map_cons, List.takeWhile_cons]
  simp only [decide_eq_true_eq]
  rfl

theorem strncmp_eq_zero {p q : ℕ → ℕ} {i n : ℕ} : strncmp p q i n = 0 ↔ upto p i n = upto q i n := by
  induction n generalizing i with
  | zero => exact iff_of_true rfl rfl
  | succ n ih =>
    rw [strncmp, upto_succ, upto_succ]
    by_cases hp : p i = 0 <;> by_cases hq : q i = 0 <;> by_cases hpq : p i = q i <;>
      simp [hp, hq, hpq, ih]
    all_goals omega

theorem upto_bytesOf (s : List ℕ) (n : ℕ) : upto (Scsh.bytesOf s) 0 n = (s.take n).takeWhile (· ≠ 0) := by
  induction n generalizing s with
  | zero =>
    rw [List.take_zero]
    rfl
  | succ n ih =>
    rw [upto_succ]
    cases s with
    | nil =>
      rw [if_neg (by simp [Scsh.bytesOf])]
      rfl
    | cons c s =>
      have hshift : upto (Scsh.bytesOf (c :: s)) (0 + 1) n = upto (Scsh.bytesOf s) 0 n := by
        rw [upto, upto, List.range'_eq_map_range, List.range'_eq_map_range, List.map_map, List.map_map]
        congr 1
        refine List.map_congr_left fun i _ => ?_
        simp [Scsh.bytesOf, Nat.add_comm 1 i]
      rw [hshift, ih, List.take_succ_cons, List.takeWhile_cons]
      simp only [decide_eq_true_eq]
      rfl

theorem strncmp_eq_zero_iff (s t : List ℕ) :
    strncmp (Scsh.bytesOf s) (Scsh.bytesOf t) 0 DIRSIZ = 0 ↔ namecmp s t = true := by
  rw [strncmp_eq_zero, upto_bytesOf, upto_bytesOf, namecmp, decide_eq_true_iff]
  rfl

theorem length_nameOf (s : List ℕ) : (nameOf s).length ≤ DIRSIZ :=
  (List.takeWhile_prefix _).length_le.trans (List.length_take_le _ _)

theorem of_mem_nameOf {c : ℕ} {s : List ℕ} (h : c ∈ nameOf s) : decide (c ≠ 0) = true :=
  List.mem_takeWhile_imp (p := fun c => decide (c ≠ 0)) h

theorem length_dirent (name : List ℕ) (inum : ℕ) : (dirent name inum).length = 16 := by
  have := length_nameOf name
  rw [dirent, List.length_append, List.length_append, List.length_replicate]
  simp only [List.length_cons, List.length_nil]
  unfold DIRSIZ at this ⊢
  omega

theorem dirent_name (name : List ℕ) (inum : ℕ) : nameOf (direntName (dirent name inum)) = nameOf name := by
  have hname : direntName (dirent name inum) =
      nameOf name ++ List.replicate (DIRSIZ - (nameOf name).length) 0 := rfl
  have hlen := length_nameOf name
  have hfull : (nameOf name ++ List.replicate (DIRSIZ - (nameOf name).length) 0).length ≤ DIRSIZ := by
    rw [List.length_append, List.length_replicate]
    omega
  rw [hname, nameOf, List.take_of_length_le hfull, List.takeWhile_append_of_pos fun c hc => of_mem_nameOf hc]
  cases DIRSIZ - (nameOf name).length with
  | zero => rw [List.replicate_zero, List.takeWhile_nil, List.append_nil]
  | succ n =>
    rw [List.replicate_succ, List.takeWhile_cons_of_neg (by simp), List.append_nil]

theorem dirent_inum {inum : ℕ} (name : List ℕ) (h : inum < 65536) :
    direntInum (dirent name inum) = inum := by
  have h0 : (dirent name inum).getD 0 0 = byteOf inum 0 := rfl
  have h1 : (dirent name inum).getD 1 0 = byteOf inum 1 := rfl
  rw [direntInum, h0, h1, byteOf, byteOf, Nat.pow_zero, Nat.pow_one, Nat.div_one]
  omega

/-- What `strncpy` stores is the name in a `struct dirent`. -/
theorem strncpy_name (name : List ℕ) (inum : ℕ) :
    (strncpy (Scsh.bytesOf name) DIRSIZ).map Prod.snd = direntName (dirent name inum) := by
  have hpad : ∀ i n, (strncpyPad i n).map Prod.snd = List.replicate n 0 := by
    intro i n
    induction n generalizing i with
    | zero => rfl
    | succ n ih => rw [strncpyPad, List.map_cons, ih, List.replicate_succ]
  have hall : ∀ (n i : ℕ), (strncpyFrom (Scsh.bytesOf name) i n).map Prod.snd =
      upto (Scsh.bytesOf name) i n ++ List.replicate (n - (upto (Scsh.bytesOf name) i n).length) 0 := by
    intro n
    induction n with
    | zero => exact fun i => rfl
    | succ n ih =>
      intro i
      rw [strncpyFrom, List.map_cons, upto_succ]
      by_cases hc : Scsh.bytesOf name i ≠ 0
      · rw [if_pos hc, if_pos hc, ih, List.length_cons, Nat.add_sub_add_right]
        rfl
      · rw [if_neg hc, if_neg hc, hpad, List.length_nil, List.nil_append, Nat.sub_zero,
          List.replicate_succ, not_not.1 hc]
  rw [strncpy, hall, upto_bytesOf]
  rfl

/-! ## The code -/

/-- `dirlookup` up to `iget`: the offset and the inode number. -/
def dirScan (dir : ℕ) (name : List ℕ) (fs : Store) : Except String (Option (ℕ × ℕ) × Store) :=
  if (fs.ip dir).type ≠ T_DIR then .error "dirlookup not DIR"
  else lookupLoop dir name (direntOffsets (fs.ip dir).size) fs

/-- `dirlink`, without the reference that `dirlookup` takes and `iput` drops; `false` stands for -1. -/
def dirAdd (dir : ℕ) (name : List ℕ) (inum : ℕ) (fs : Store) : Except String (Bool × Store) :=
  (dirScan dir name fs).bind fun x =>
    match x.1 with
    | some _ => .ok (false, x.2)
    | none =>
      let offs := direntOffsets (x.2.ip dir).size
      (findDirent dir "dirlink read" true offs (16 * offs.length) x.2).bind fun y =>
        (writeDirent dir y.1 (dirent name inum) "dirlink" y.2).map fun fs => (true, fs)

/-- The lookup of `sys_unlink`, and the write that clears the entry at `off`. -/
def dirClear (dir : ℕ) (name : List ℕ) (fs : Store) : Except String (Bool × Store) :=
  (dirScan dir name fs).bind fun x =>
    match x.1 with
    | none => .ok (false, x.2)
    | some r => (writeDirent dir r.1 (List.replicate 16 0) "unlink: writei" x.2).map fun fs => (true, fs)

/-- `dirlink` of the system calls does this, where the name is not present. -/
theorem dirlink_eq {dp inum : ℕ} {name : List ℕ} {s : Sys} {fs : Store}
    (h : dirScan (s.icache dp).inum name s.fs = .ok (none, fs)) :
    dirlink dp name inum s =
      match dirAdd (s.icache dp).inum name inum s.fs with
      | .ok (b, fs) => .ok (b, s.setFs fs)
      | .error msg => .error (.panic msg) := by
  have htype : (s.ip dp).type = T_DIR := by
    by_contra ht
    have herr : dirScan (s.icache dp).inum name s.fs = .error "dirlookup not DIR" := if_pos ht
    rw [h] at herr
    cases herr
  have hloop : lookupLoop (s.icache dp).inum name (direntOffsets (s.ip dp).size) s.fs =
      .ok (none, fs) := by
    rw [← h]
    exact (if_neg (not_not.2 htype)).symm
  have hstore : onStore (lookupLoop (s.icache dp).inum name (direntOffsets (s.ip dp).size)) s =
      .ok (none, s.setFs fs) := by
    rw [onStore, hloop]
  have hlookup : dirlookup dp name s = .ok (none, s.setFs fs) := by
    refine (congrFun (if_neg (not_not.2 htype)) s).trans ?_
    change (onStore (lookupLoop (s.icache dp).inum name (direntOffsets (s.ip dp).size)) s).bind _ = _
    rw [hstore]
    rfl
  have hadd : dirAdd (s.icache dp).inum name inum s.fs =
      (findDirent (s.icache dp).inum "dirlink read" true (direntOffsets (fs.ip (s.icache dp).inum).size)
        (16 * (direntOffsets (fs.ip (s.icache dp).inum).size).length) fs).bind fun y =>
        (writeDirent (s.icache dp).inum y.1 (dirent name inum) "dirlink" y.2).map fun fs => (true, fs) := by
    rw [dirAdd, h]
    rfl
  rw [hadd]
  change (dirlookup dp name s).bind _ = _
  rw [hlookup]
  change (onStore (findDirent ((s.setFs fs).icache dp).inum "dirlink read" true
    (direntOffsets ((s.setFs fs).ip dp).size) (16 * (direntOffsets ((s.setFs fs).ip dp).size).length))
    (s.setFs fs)).bind _ = _
  rw [onStore]
  have hip : (s.setFs fs).ip dp = fs.ip (s.icache dp).inum := rfl
  have hfs : (s.setFs fs).fs = fs := rfl
  have hcache : ((s.setFs fs).icache dp).inum = (s.icache dp).inum := rfl
  rw [hip, hfs, hcache]
  rcases findDirent (s.icache dp).inum "dirlink read" true
    (direntOffsets (fs.ip (s.icache dp).inum).size)
    (16 * (direntOffsets (fs.ip (s.icache dp).inum).size).length) fs with msg | ⟨off, fs₁⟩
  · rfl
  · change (inStore (writeDirent (s.icache dp).inum off (dirent name inum) "dirlink")
      ((s.setFs fs).setFs fs₁)).bind _ = _
    have hfs₁ : ((s.setFs fs).setFs fs₁).fs = fs₁ := rfl
    rw [inStore, onStore, hfs₁]
    dsimp only [Except.bind]
    rcases writeDirent (s.icache dp).inum off (dirent name inum) "dirlink" fs₁ with msg | fs₂ <;> rfl

/-! ## Entries -/

/-- The entry number `k`. -/
def direntAt (fs : Store) (dir k : ℕ) : List ℕ := (List.range' (16 * k) 16).map (fs.byte dir)

/-- The inode number of an entry; 0 if it is not used. -/
def inumAt (fs : Store) (dir k : ℕ) : ℕ := direntInum (direntAt fs dir k)

/-- The name of an entry. -/
def nameAt (fs : Store) (dir k : ℕ) : List ℕ := nameOf (direntName (direntAt fs dir k))

/-- The number of entries. -/
def entries (fs : Store) (dir : ℕ) : ℕ := (fs.ip dir).size / 16

/-- A directory that is locked: full entries in a sound file system. -/
structure IsDir (fs : Store) (dir : ℕ) : Prop where
  sound : Sound fs
  lt : dir < fs.sb.ninodes
  cached : (fs.mem dir).isSome = true
  type : (fs.ip dir).type = T_DIR
  size : 16 * entries fs dir = (fs.ip dir).size

section Scan

variable {fs : Store} {dir k : ℕ} {name : List ℕ}

theorem IsDir.bound (h : IsDir fs dir) : (fs.ip dir).size ≤ MAXFILE * BSIZE :=
  (h.sound.proper dir h.lt).size

theorem maxsize : MAXFILE * BSIZE = 71680 := rfl

theorem readDirent_eq (h : IsDir fs dir) (hk : k < entries fs dir) (msg : String) :
    readDirent dir (16 * k) msg fs = .ok (direntAt fs dir k, fs) := by
  have hsize := h.size
  have hbound := h.bound
  rw [maxsize] at hbound
  have hdev : (fs.ip dir).type ≠ T_DEV := by
    rw [h.type]
    decide
  have hoff : 16 * k < 2 ^ 32 := by omega
  have hn : 16 < 2 ^ 32 := by decide
  have hread := Fs.readi_eq (h.sound.proper dir h.lt).size (h.sound.proper dir h.lt).mapped hdev hoff hn
  rw [if_neg (by omega), show min 16 ((fs.ip dir).size - 16 * k) = 16 by omega] at hread
  rw [readDirent, hread]
  rfl

theorem direntOffsets_eq (h : IsDir fs dir) :
    direntOffsets (fs.ip dir).size = (List.range (entries fs dir)).map (16 * ·) := by
  have hsize := h.size
  rw [direntOffsets, show ((fs.ip dir).size + 15) / 16 = entries fs dir by omega]

/-- The test of `dirlookup`. -/
def holdsName (fs : Store) (dir : ℕ) (name : List ℕ) (k : ℕ) : Bool :=
  decide (inumAt fs dir k ≠ 0 ∧ nameOf name = nameAt fs dir k)

theorem lookupLoop_eq (h : IsDir fs dir) (name : List ℕ) {ks : List ℕ} (hks : ∀ k ∈ ks, k < entries fs dir) :
    lookupLoop dir name (ks.map (16 * ·)) fs =
      .ok ((ks.find? (holdsName fs dir name)).map fun k => (16 * k, inumAt fs dir k), fs) := by
  induction ks with
  | nil => rfl
  | cons k ks ih =>
    obtain ⟨hk, hks⟩ := List.forall_mem_cons.1 hks
    rw [List.map_cons, lookupLoop, readDirent_eq h hk]
    change (if _ then _ else _) = _
    have hcond : (direntInum (direntAt fs dir k) ≠ 0 ∧ namecmp name (direntName (direntAt fs dir k)) = true) ↔
        holdsName fs dir name k = true := by
      rw [holdsName, decide_eq_true_iff, namecmp, decide_eq_true_iff]
      rfl
    by_cases hc : holdsName fs dir name k = true
    · rw [if_pos (hcond.2 hc), List.find?_cons_of_pos hc]
      rfl
    · rw [if_neg (fun h' => hc (hcond.1 h')), List.find?_cons_of_neg hc]
      exact ih hks

/-- **`dirlookup`** gives the first entry with the name. -/
theorem dirScan_eq (h : IsDir fs dir) (name : List ℕ) : dirScan dir name fs =
    .ok (((List.range (entries fs dir)).find? (holdsName fs dir name)).map
      fun k => (16 * k, inumAt fs dir k), fs) := by
  rw [dirScan, if_neg (not_not.2 h.type), direntOffsets_eq h]
  exact lookupLoop_eq h name fun k hk => List.mem_range.1 hk

/-- What writing an entry does: a new directory with this entry and the others as they were. -/
structure EntryPut (fs fs' : Store) (dir k : ℕ) (de : List ℕ) : Prop where
  isDir : IsDir fs' dir
  entries : entries fs' dir = max (entries fs dir) (k + 1)
  entry : direntAt fs' dir k = de
  others : ∀ j < Sysfile.entries fs' dir, j ≠ k → direntAt fs' dir j = direntAt fs dir j

theorem writeDirent_cases (h : IsDir fs dir) (hk : k ≤ entries fs dir) {de : List ℕ}
    (hde : de.length = 16) (msg : String) :
    writeDirent dir (16 * k) de msg fs = .error "balloc: out of blocks" ∨
    (MAXFILE * BSIZE < 16 * (k + 1) ∧ writeDirent dir (16 * k) de msg fs = .error msg) ∨
    ∃ fs', writeDirent dir (16 * k) de msg fs = .ok fs' ∧ EntryPut fs fs' dir k de := by
  have hsize := h.size
  have hbound := h.bound
  rw [maxsize] at hbound
  have hdev : (fs.ip dir).type ≠ T_DEV := by
    rw [h.type]
    decide
  have hoff : 16 * k < 2 ^ 32 := by omega
  have hn : de.length < 2 ^ 32 := by omega
  rcases Fs.writei_cases h.sound h.lt h.cached hdev hoff hn with
    ⟨hbig, he⟩ | ⟨hfit, ⟨he, -⟩ | ⟨fs', he, hs, hc⟩⟩
  · refine .inr (.inl ⟨by rw [hde, maxsize] at hbig; rw [maxsize]; omega, ?_⟩)
    rw [writeDirent, he]
    rfl
  · refine .inl ?_
    rw [writeDirent, he]
    rfl
  · refine .inr (.inr ⟨fs', ?_, ?_⟩)
    · rw [writeDirent, he, hde]
      rfl
    · rw [hde, maxsize] at hfit
      have hsz := hs.size
      rw [hde] at hsz
      have hn : entries fs' dir = max (entries fs dir) (k + 1) := by
        rw [entries, hsz]
        omega
      have hbyte : ∀ o < 71680, fs'.byte dir o =
          if 16 * k ≤ o ∧ o < 16 * k + 16 then de.getD (o - 16 * k) 0 else fs.byte dir o := fun o ho => by
        have := hs.byte o ho
        rwa [hde] at this
      refine ⟨⟨hs.sound, by rw [hs.sb]; exact h.lt, hc, hs.type.trans h.type, ?_⟩, hn, ?_, ?_⟩
      · rw [hn, hsz]
        omega
      · refine List.ext_getElem (by simp [direntAt, hde]) fun i h₁ h₂ => ?_
        have hi : i < 16 := by rwa [hde] at h₂
        simp only [direntAt, List.getElem_map, List.getElem_range', Nat.one_mul]
        rw [hbyte _ (by omega), if_pos (by omega), Nat.add_sub_cancel_left]
        simp [List.getD_eq_getElem?_getD, h₂]
      · intro j hj hne
        refine List.map_congr_left fun o ho => ?_
        rw [List.mem_range'_1] at ho
        rw [hn] at hj
        rw [hbyte o (by omega), if_neg (by omega)]

end Scan

/-! ## The map -/

/-- The used entries have different names and are the map `A`. -/
structure IsMap (fs : Store) (dir : ℕ) (A : List ℕ → Option ℕ) : Prop where
  isDir : IsDir fs dir
  distinct : ∀ k < entries fs dir, ∀ k' < entries fs dir, inumAt fs dir k ≠ 0 → inumAt fs dir k' ≠ 0 →
    nameAt fs dir k = nameAt fs dir k' → k = k'
  map : ∀ name i, A name = some i ↔
    ∃ k < entries fs dir, inumAt fs dir k ≠ 0 ∧ nameAt fs dir k = name ∧ inumAt fs dir k = i

section Maps

variable {fs fs' : Store} {dir k : ℕ} {name : List ℕ} {A : List ℕ → Option ℕ}

theorem EntryPut.inumAt {de : List ℕ} (h : EntryPut fs fs' dir k de) (j : ℕ)
    (hj : j < Sysfile.entries fs' dir) :
    Sysfile.inumAt fs' dir j = if j = k then direntInum de else Sysfile.inumAt fs dir j := by
  unfold Sysfile.inumAt
  split_ifs with hjk
  · rw [hjk, h.entry]
  · rw [h.others j hj hjk]

theorem EntryPut.nameAt {de : List ℕ} (h : EntryPut fs fs' dir k de) (j : ℕ)
    (hj : j < Sysfile.entries fs' dir) :
    Sysfile.nameAt fs' dir j = if j = k then nameOf (direntName de) else Sysfile.nameAt fs dir j := by
  unfold Sysfile.nameAt
  split_ifs with hjk
  · rw [hjk, h.entry]
  · rw [h.others j hj hjk]

/-- An entry that is not used is filled. -/
theorem IsMap.link (h : IsMap fs dir A) {inum : ℕ} (hi : 0 < inum ∧ inum < 65536)
    (hfree : k < entries fs dir → inumAt fs dir k = 0) (hk : k ≤ entries fs dir)
    (hnew : A (nameOf name) = none) (hput : EntryPut fs fs' dir k (dirent name inum)) :
    IsMap fs' dir (Function.update A (nameOf name) (some inum)) := by
  have hn := hput.entries
  have hinum := hput.inumAt
  have hname := hput.nameAt
  rw [dirent_inum name hi.2] at hinum
  rw [dirent_name] at hname
  have hold : ∀ j < entries fs' dir, j ≠ k → inumAt fs' dir j ≠ 0 → j < entries fs dir ∧
      inumAt fs dir j ≠ 0 := by
    intro j hj hjk hu
    rw [hinum j hj, if_neg hjk] at hu
    exact ⟨by omega, hu⟩
  have hother : ∀ j < entries fs dir, inumAt fs dir j ≠ 0 → nameAt fs dir j ≠ nameOf name := by
    intro j hj hu he
    have := (h.map (nameOf name) (inumAt fs dir j)).2 ⟨j, hj, hu, he, rfl⟩
    rw [hnew] at this
    cases this
  refine ⟨hput.isDir, fun j hj j' hj' hu hu' he => ?_, fun nm i => ?_⟩
  · rw [hname j hj, hname j' hj'] at he
    by_cases hjk : j = k <;> by_cases hjk' : j' = k
    · omega
    · rw [if_pos hjk, if_neg hjk'] at he
      obtain ⟨h₁, h₂⟩ := hold j' hj' hjk' hu'
      exact absurd he.symm (hother j' h₁ h₂)
    · rw [if_neg hjk, if_pos hjk'] at he
      obtain ⟨h₁, h₂⟩ := hold j hj hjk hu
      exact absurd he (hother j h₁ h₂)
    · rw [if_neg hjk, if_neg hjk'] at he
      obtain ⟨h₁, h₂⟩ := hold j hj hjk hu
      obtain ⟨h₃, h₄⟩ := hold j' hj' hjk' hu'
      exact h.distinct j h₁ j' h₃ h₂ h₄ he
  · rw [Function.update_apply]
    constructor
    · intro hA
      split_ifs at hA with hnm
      · obtain rfl := Option.some.inj hA
        refine ⟨k, by omega, ?_, ?_, ?_⟩
        · rw [hinum k (by omega), if_pos rfl]
          omega
        · rw [hname k (by omega), if_pos rfl, hnm]
        · rw [hinum k (by omega), if_pos rfl]
      · obtain ⟨j, hj, hu, he, hij⟩ := (h.map nm i).1 hA
        have hjk : j ≠ k := fun hjk => hu (hjk ▸ hfree (hjk ▸ hj))
        refine ⟨j, by omega, ?_, ?_, ?_⟩
        · rwa [hinum j (by omega), if_neg hjk]
        · rwa [hname j (by omega), if_neg hjk]
        · rwa [hinum j (by omega), if_neg hjk]
    · rintro ⟨j, hj, hu, he, hij⟩
      rw [hname j hj] at he
      rw [hinum j hj] at hij
      by_cases hjk : j = k
      · rw [if_pos hjk] at he hij
        rw [if_pos he.symm, hij]
      · rw [if_neg hjk] at he hij
        obtain ⟨h₁, h₂⟩ := hold j hj hjk hu
        rw [if_neg fun hnm => hother j h₁ h₂ (he.trans hnm)]
        exact (h.map nm i).2 ⟨j, h₁, h₂, he, hij⟩

/-- A used entry is cleared. -/
theorem IsMap.clear (h : IsMap fs dir A) (hk : k < entries fs dir) (hused : inumAt fs dir k ≠ 0)
    (hput : EntryPut fs fs' dir k (List.replicate 16 0)) :
    IsMap fs' dir (Function.update A (nameAt fs dir k) none) := by
  have hn := hput.entries
  have hinum := hput.inumAt
  have hname := hput.nameAt
  have hz : direntInum (List.replicate 16 0) = 0 := rfl
  rw [hz] at hinum
  have hold : ∀ j < entries fs' dir, inumAt fs' dir j ≠ 0 → j ≠ k ∧ j < entries fs dir ∧
      inumAt fs dir j ≠ 0 ∧ nameAt fs' dir j = nameAt fs dir j ∧ inumAt fs' dir j = inumAt fs dir j := by
    intro j hj hu
    have hjk : j ≠ k := by
      intro hjk
      rw [hinum j hj, if_pos hjk] at hu
      exact hu rfl
    rw [hinum j hj, if_neg hjk] at hu ⊢
    rw [hname j hj, if_neg hjk]
    exact ⟨hjk, by omega, hu, rfl, rfl⟩
  refine ⟨hput.isDir, fun j hj j' hj' hu hu' he => ?_, fun nm i => ?_⟩
  · obtain ⟨-, h₁, h₂, hn₁, -⟩ := hold j hj hu
    obtain ⟨-, h₃, h₄, hn₂, -⟩ := hold j' hj' hu'
    rw [hn₁, hn₂] at he
    exact h.distinct j h₁ j' h₃ h₂ h₄ he
  · rw [Function.update_apply]
    constructor
    · intro hA
      split_ifs at hA with hnm
      obtain ⟨j, hj, hu, he, hij⟩ := (h.map nm i).1 hA
      have hjk : j ≠ k := fun hjk => hnm (by rw [← he, hjk])
      refine ⟨j, by omega, ?_, ?_, ?_⟩
      · rwa [hinum j (by omega), if_neg hjk]
      · rwa [hname j (by omega), if_neg hjk]
      · rwa [hinum j (by omega), if_neg hjk]
    · rintro ⟨j, hj, hu, he, hij⟩
      obtain ⟨hjk, h₁, h₂, hn₁, hn₂⟩ := hold j hj hu
      rw [hn₁] at he
      rw [hn₂] at hij
      have hnm : nm ≠ nameAt fs dir k := by
        intro hnm
        exact hjk (h.distinct j h₁ k hk h₂ hused (he.trans hnm))
      rw [if_neg hnm]
      exact (h.map nm i).2 ⟨j, h₁, h₂, he, hij⟩

end Maps

/-! ## Operations -/

/-- An operation on a directory. -/
inductive DirOp
  | dirlookup (name : List ℕ)
  | dirlink (name : List ℕ) (inum : ℕ)
  | unlink (name : List ℕ)

/-- What an operation returns: the offset and the inode number, or whether it did something. -/
inductive DirReply
  | found (r : Option (ℕ × ℕ))
  | done (b : Bool)

namespace DirOp

/-- The operation on the bytes. -/
def exec (dir : ℕ) : DirOp → Store → Except String (DirReply × Store)
  | dirlookup name, fs => (dirScan dir name fs).map fun x => (.found x.1, x.2)
  | dirlink name inum, fs => (dirAdd dir name inum fs).map fun x => (.done x.1, x.2)
  | unlink name, fs => (dirClear dir name fs).map fun x => (.done x.1, x.2)

/-- The inode numbers that fit in a `struct dirent`. -/
def Ok : DirOp → Prop
  | dirlink _ inum => 0 < inum ∧ inum < 65536
  | _ => True

/-- The entry with the name. -/
def Finds (fs : Store) (dir : ℕ) (name : List ℕ) (r : ℕ × ℕ) : Prop :=
  ∃ k < entries fs dir, r = (16 * k, inumAt fs dir k) ∧ inumAt fs dir k ≠ 0 ∧
    nameAt fs dir k = nameOf name

/-- What the operation should return and leave, on a directory with the map `A`. -/
def Does (dir : ℕ) (A : List ℕ → Option ℕ) (fs : Store) : DirOp → DirReply → Store → Prop
  | dirlookup name, r, fs' => fs' = fs ∧ ∃ o, r = .found o ∧ o.map Prod.snd = A (nameOf name) ∧
      ∀ x, o = some x → Finds fs dir name x
  | dirlink name inum, r, fs' => r = .done (A (nameOf name)).isNone ∧
      (A (nameOf name) ≠ none → fs' = fs) ∧
      (A (nameOf name) = none → ∃ k, (k < entries fs dir → inumAt fs dir k = 0) ∧
        EntryPut fs fs' dir k (dirent name inum))
  | unlink name, r, fs' => r = .done (A (nameOf name)).isSome ∧
      (A (nameOf name) = none → fs' = fs) ∧
      (A (nameOf name) ≠ none → ∃ k < entries fs dir, nameAt fs dir k = nameOf name ∧
        EntryPut fs fs' dir k (List.replicate 16 0))

end DirOp

/-- A directory of the maximal size in which every entry is used. -/
def DirFull (fs : Store) (dir : ℕ) : Prop :=
  (fs.ip dir).size = MAXFILE * BSIZE ∧ ∀ k < entries fs dir, inumAt fs dir k ≠ 0

section Steps

variable {fs : Store} {dir : ℕ} {A : List ℕ → Option ℕ}

/-- The directory is the map, and any operation will do to it what it should. -/
structure Follows (dir : ℕ) (s : Store × (List ℕ → Option ℕ)) : Prop where
  isMap : IsMap s.1 dir s.2
  next : ∀ op : DirOp, op.Ok → op.exec dir s.1 = .error "balloc: out of blocks" ∨
    (DirFull s.1 dir ∧ op.exec dir s.1 = .error "dirlink") ∨
    ∃ r fs', op.exec dir s.1 = .ok (r, fs') ∧ op.Does dir s.2 s.1 r fs'

end Steps

/-! ## A new directory -/

/-- The small disk with an empty directory, which is locked. -/
def dirStart : Store :=
  (Fs.image.write (Fs.IBLOCK 2 Fs.image.sb)
    (Fs.putDinode (Fs.image.disk (Fs.IBLOCK 2 Fs.image.sb)) (2 % Fs.IPB) { type := T_DIR })).setIp 2 id

theorem dirStart_isMap : IsMap dirStart 2 fun _ => none := by
  have halloc : Fs.ialloc T_DIR Fs.image = .ok (2, Fs.image.write (Fs.IBLOCK 2 Fs.image.sb)
      (Fs.putDinode (Fs.image.disk (Fs.IBLOCK 2 Fs.image.sb)) (2 % Fs.IPB) { type := T_DIR })) := rfl
  have hsize : (dirStart.ip 2).size = 0 := by decide +kernel
  have htype : (dirStart.ip 2).type = T_DIR := by decide +kernel
  have hent : entries dirStart 2 = 0 := by rw [entries, hsize]
  have hsound : Sound dirStart := by
    have hdir : 0 < T_DIR ∧ T_DIR < 2 ^ 16 := by decide
    rcases Fs.ialloc_cases Fs.image_sound hdir with he | ⟨i, fs', he, hs, -⟩
    · rw [halloc] at he
      cases he
    · rw [halloc] at he
      obtain ⟨-, rfl⟩ := Prod.mk.inj (Except.ok.inj he)
      have hlock : Fs.ilock 2 (Fs.image.write (Fs.IBLOCK 2 Fs.image.sb)
          (Fs.putDinode (Fs.image.disk (Fs.IBLOCK 2 Fs.image.sb)) (2 % Fs.IPB) { type := T_DIR })) =
          .ok dirStart := by
        have hne : ¬ (dirStart.ip 2).type = 0 := by rw [htype]; decide
        change (if (dirStart.ip 2).type = 0 then (.error "ilock: no type" : Except String Store)
          else .ok dirStart) = .ok dirStart
        rw [if_neg hne]
      rcases Fs.ilock_cases (Fs.image.write (Fs.IBLOCK 2 Fs.image.sb)
        (Fs.putDinode (Fs.image.disk (Fs.IBLOCK 2 Fs.image.sb)) (2 % Fs.IPB) { type := T_DIR })) 2 with
        he | ⟨fs'', he, hc, -⟩
      · rw [hlock] at he
        cases he
      · rw [hlock] at he
        obtain rfl := Except.ok.inj he
        exact hc.sound hs
  refine ⟨⟨hsound, by decide, rfl, htype, by rw [hent, hsize]⟩, fun k hk => ?_, fun nm i => ?_⟩
  · rw [hent] at hk
    omega
  · refine iff_of_false (by simp) ?_
    rintro ⟨k, hk, -⟩
    rw [hent] at hk
    omega

theorem dirStart_writes {de : List ℕ} (hde : de.length = 16) (msg : String) :
    (writeDirent 2 (16 * 0) de msg dirStart).toBool = true := by
  have hbits : ∀ j < 4, (decide (0 * Fs.BPB + j < dirStart.sb.size) &&
      !getBit (dirStart.disk (Fs.BBLOCK (0 * Fs.BPB) dirStart.sb)) j) = false := by decide +kernel
  have hbit : (decide (0 * Fs.BPB + 4 < dirStart.sb.size) &&
      !getBit (dirStart.disk (Fs.BBLOCK (0 * Fs.BPB) dirStart.sb)) 4) = true := by decide +kernel
  have hfind : (List.range Fs.BPB).find? (fun bi => decide (0 * Fs.BPB + bi < dirStart.sb.size) &&
      !getBit (dirStart.disk (Fs.BBLOCK (0 * Fs.BPB) dirStart.sb)) bi) = some 4 := by
    rw [List.find?_range_eq_some]
    exact ⟨hbit, List.mem_range.2 (by decide), fun j hj => by rw [hbits j hj]; rfl⟩
  have hfree : Fs.freeBlock dirStart = some 4 := by
    have hone : (dirStart.sb.size + Fs.BPB - 1) / Fs.BPB = 1 := rfl
    rw [Fs.freeBlock, hone, List.range_one, List.findSome?_cons, hfind]
    rfl
  have haddr : (dirStart.ip 2).addrs 0 = 0 := by decide +kernel
  have htype : ¬ (dirStart.ip 2).type = T_DEV := by decide +kernel
  have hsize : (dirStart.ip 2).size = 0 := by decide +kernel
  obtain ⟨fs₁, hbmap⟩ : ∃ fs₁, Fs.bmap 2 0 dirStart = .ok (4, fs₁) := by
    rw [Fs.bmap, if_pos (by decide), Fs.mapAddr, if_pos haddr, Fs.balloc, hfree]
    exact ⟨_, rfl⟩
  obtain ⟨fs₂, hloop⟩ : ∃ fs₂, Fs.writeLoop 2 16 0 de dirStart = .ok (16, fs₂) := by
    have h0 : 0 / BSIZE = 0 := rfl
    rw [Fs.writeLoop, if_neg (by omega), h0, hbmap]
    change ∃ fs₂, Fs.writeLoop 2 15 (0 + min de.length 512) (de.drop (min de.length 512)) _ = _
    rw [hde, Fs.writeLoop, List.length_drop, hde, if_pos (by decide)]
    exact ⟨_, rfl⟩
  have hwrite : ∃ fs₃, Fs.writei 2 (16 * 0) de dirStart = .ok (.written 16, fs₃) := by
    unfold Fs.writei
    rw [hde, hsize]
    dsimp only
    rw [if_neg htype, if_neg (by decide), if_neg (by decide), Nat.mul_zero, hloop]
    by_cases hgrow : 16 > 0 ∧ 16 > (fs₂.ip 2).size
    · exact ⟨_, congrArg Except.ok (if_pos hgrow)⟩
    · exact ⟨_, congrArg Except.ok (if_neg hgrow)⟩
  obtain ⟨fs₃, hwrite⟩ := hwrite
  rw [writeDirent, hwrite]
  rfl

end Sysfile

end OsPlayground
